import Mathlib.Order.Fin.Basic
import Rucux.Memory.Mmap

/-!
TLB shootdown. A processor makes one access in a step. What happens under `user_mapping_lock` is what
the holder of the lock does next; the others that want it spin. Interrupts come at any time, whether
or not there is a request, and are not taken again while one is served.
-/

namespace Rucux.Memory
open Lib Function

abbrev cpuLimit : Nat := 64

/-- A machine with fewer processors is one where the rest do nothing. -/
abbrev Cpu : Type := Fin cpuLimit

abbrev Root : Type := { r : Nat // r ≠ 0 }

def cpuBits (p : Cpu → Bool) : BitVec 64 :=
  (List.finRange cpuLimit).foldl (fun result i => if p i then result ||| 1#64 <<< i.val else result) 0

def rootMask (roots : Cpu → Nat) (root : Nat) : BitVec 64 :=
  if root ≠ 0 then cpuBits fun i => roots i = root else 0

def rootAll (roots : Cpu → Nat) : BitVec 64 := cpuBits fun i => roots i ≠ 0

theorem getLsbD_bit_of_ne {c i : Cpu} (h : c ≠ i) : (1#64 <<< i.val).getLsbD c.val = false := by
  have hne : ¬ c.val = i.val := fun hv => h (Fin.ext hv)
  simp only [BitVec.getLsbD_shiftLeft,BitVec.getLsbD_one]
  by_cases hlt : c.val < i.val
  · simp [hlt]
  have hsub : ¬ c.val - i.val = 0 := by omega
  simp [hsub]

theorem getLsbD_foldl (p : Cpu → Bool) (c : Cpu) (l : List Cpu) (acc : BitVec 64) :
    (l.foldl (fun result i => if p i then result ||| 1#64 <<< i.val else result) acc).getLsbD c.val =
      (acc.getLsbD c.val || decide (c ∈ l) && p c) := by
  induction l generalizing acc with
  | nil => simp
  | cons i l ih =>
    rw [List.foldl_cons,ih]
    have hc : c.val < 64 := c.isLt
    by_cases hci : c = i
    · subst hci
      cases hp : p c
      · simp
      · simp [hc]
    have hacc : (if p i then acc ||| 1#64 <<< i.val else acc).getLsbD c.val = acc.getLsbD c.val := by
      split
      · rw [BitVec.getLsbD_or,getLsbD_bit_of_ne hci,Bool.or_false]
      · rfl
    rw [hacc]
    simp [hci]

@[simp] theorem getLsbD_cpuBits (p : Cpu → Bool) (c : Cpu) : (cpuBits p).getLsbD c.val = p c := by
  rw [cpuBits,getLsbD_foldl]
  simp

/-- What the holder of the lock does next: `switch_to`, or a change of a page table and then
`invalidate`, which has come to processor `id` in one of its two loops. -/
inductive Work where
  | switching (root : Root)
  | entering (root : Root)
  | updating (address : Nat)
  | flushing (address : Nat)
  | targeting (address : Nat)
  | posting (address : Nat) (targets : BitVec 64) (id : Nat) (sequences : Cpu → BitVec 32)
  | requesting (address : Nat) (targets : BitVec 64) (id : Cpu) (sequences : Cpu → BitVec 32)
  | waiting (address : Nat) (targets : BitVec 64) (id : Nat) (sequences : Cpu → BitVec 32)
  | returned (address : Nat)
  | leaving

/-- `service`, from its load of `requested_` on. -/
inductive Nmi where
  | idle
  | checking (sequence : BitVec 32)
  | fetching (sequence : BitVec 32)
  | flushing (sequence : BitVec 32) (address : Nat)
  | acking (sequence : BitVec 32)

/-- The mailboxes are `address`, `requested` and `completed`; `posts` has the addresses that were posted
to a processor and `served` those it has flushed. `stale` says that a processor had the table of an
address active when it was last changed, and has neither flushed the address nor switched since. -/
structure Tlb where
  cr3 : Cpu → Nat
  roots : Cpu → Nat
  holder : Option (Cpu × Work)
  address : Cpu → Nat
  requested : Cpu → BitVec 32
  completed : Cpu → BitVec 32
  nmi : Cpu → Nmi
  posts : Cpu → List Nat
  served : Cpu → List Nat
  stale : Cpu → Nat → Bool

namespace Tlb

def isUser (address : Nat) : Bool := UserLayout.amd64.userRange address 1

/-- The processors that a change by `t` concerns: those with its page table, or with any for a kernel
address. -/
def affects (s : Tlb) (t : Cpu) (address : Nat) (c : Cpu) : Bool :=
  if isUser address then s.cr3 c = s.cr3 t else s.roots c ≠ 0

def flush (s : Tlb) (c : Cpu) (address : Nat) : Tlb :=
  { s with stale := update s.stale c (update (s.stale c) address false) }

def targets (s : Tlb) (self : Cpu) (address : Nat) : BitVec 64 :=
  let users := if isUser address then rootMask s.roots (s.cr3 self) else rootAll s.roots
  users &&& ~~~(1#64 <<< self.val)

def goOn (s : Tlb) (t : Cpu) (w : Work) : Tlb := { s with holder := some (t,w) }

def work (s : Tlb) (t : Cpu) : Work → Tlb
  | .switching root =>
    { s with
      cr3 := update s.cr3 t root.val
      stale := update s.stale t fun _ => false
      holder := some (t,.entering root) }
  | .entering root => { s with roots := update s.roots t root.val, holder := some (t,.leaving) }
  | .updating address =>
    { s with
      stale := fun c a => if a = address && s.affects t address c then true else s.stale c a
      holder := some (t,.flushing address) }
  | .flushing address => (s.flush t address).goOn t (.targeting address)
  | .targeting address => s.goOn t (.posting address (s.targets t address) 0 fun _ => 0)
  | .posting address targets id sequences =>
    if h : id < cpuLimit then
      if targets.getLsbD id then
        { s with
          address := update s.address ⟨id,h⟩ address
          holder := some (t,.requesting address targets ⟨id,h⟩ sequences) }
      else s.goOn t (.posting address targets (id + 1) sequences)
    else s.goOn t (.waiting address targets 0 sequences)
  | .requesting address targets id sequences =>
    let next := s.requested id + 1
    { s with
      requested := update s.requested id next
      posts := update s.posts id (s.posts id ++ [address])
      holder := some (t,.posting address targets (id.val + 1) (update sequences id next)) }
  | .waiting address targets id sequences =>
    if h : id < cpuLimit then
      if targets.getLsbD id then
        if s.completed ⟨id,h⟩ = sequences ⟨id,h⟩ then s.goOn t (.waiting address targets (id + 1) sequences)
        else s
      else s.goOn t (.waiting address targets (id + 1) sequences)
    else s.goOn t (.returned address)
  | .returned _ | .leaving => { s with holder := none }

def service (s : Tlb) (c : Cpu) : Tlb :=
  match s.nmi c with
  | .idle => s
  | .checking sequence =>
    { s with
      nmi := update s.nmi c (if sequence = s.completed c then .idle else .fetching sequence) }
  | .fetching sequence => { s with nmi := update s.nmi c (.flushing sequence (s.address c)) }
  | .flushing sequence address =>
    { s.flush c address with
      served := update s.served c (s.served c ++ [address])
      nmi := update s.nmi c (.acking sequence) }
  | .acking sequence =>
    { s with
      completed := update s.completed c sequence
      nmi := update s.nmi c .idle }

/-- `abandon` is a change that is not made, as where there is no memory for a table. Only a processor
that is up changes a page table. -/
inductive Event where
  | switchTo (c : Cpu) (root : Root)
  | update (c : Cpu) (address : Nat)
  | abandon
  | work
  | nmi (c : Cpu)
  | service (c : Cpu)

def step (s : Tlb) : Event → Tlb
  | .switchTo c root => if s.holder.isNone then s.goOn c (.switching root) else s
  | .update c address => if s.holder.isNone && s.roots c ≠ 0 then s.goOn c (.updating address) else s
  | .abandon =>
    match s.holder with
    | some (t,.updating _) => s.goOn t .leaving
    | _ => s
  | .work =>
    match s.holder with
    | some (t,w) => s.work t w
    | none => s
  | .nmi c =>
    match s.nmi c with
    | .idle => { s with nmi := update s.nmi c (.checking (s.requested c)) }
    | _ => s
  | .service c => s.service c

def init : Tlb where
  cr3 := fun _ => 0
  roots := fun _ => 0
  holder := none
  address := fun _ => 0
  requested := fun _ => 0
  completed := fun _ => 0
  nmi := fun _ => .idle
  posts := fun _ => []
  served := fun _ => []
  stale := fun _ _ => false

def machine : Machine Tlb Event := ⟨init,step⟩

variable {s s' : Tlb} {t c : Cpu} {w : Work} {v : Nat}

def Unserved (s : Tlb) (c : Cpu) (v : Nat) : Prop := s.posts c = s.served c ++ [v]

def MailOk (s : Tlb) (c : Cpu) (k : Nat) : Nmi → Prop
  | .idle => (s.served c).length = k ∧ (s.posts c = s.served c ∨ s.Unserved c (s.address c))
  | .checking sequence =>
    (s.served c).length = k ∧ (s.posts c = s.served c ∨ s.Unserved c (s.address c)) ∧
      (sequence = BitVec.ofNat 32 k ∨ sequence = BitVec.ofNat 32 (k + 1) ∧ s.Unserved c (s.address c))
  | .fetching sequence =>
    (s.served c).length = k ∧ sequence = BitVec.ofNat 32 (k + 1) ∧ s.Unserved c (s.address c)
  | .flushing sequence address =>
    (s.served c).length = k ∧ sequence = BitVec.ofNat 32 (k + 1) ∧ s.Unserved c (s.address c) ∧
      address = s.address c
  | .acking sequence =>
    (s.served c).length = k + 1 ∧ sequence = BitVec.ofNat 32 (k + 1) ∧ s.posts c = s.served c

/-- The holder has posted to `c`, and has not seen it complete. -/
def Awaits : Work → Cpu → Prop
  | .posting _ targets id _,c => targets.getLsbD c = true ∧ c.val < id
  | .requesting _ targets id _,c => targets.getLsbD c = true ∧ c.val < id.val
  | .waiting _ targets id _,c => targets.getLsbD c = true ∧ id ≤ c.val
  | _,_ => False

def sequence : Work → Cpu → BitVec 32
  | .posting _ _ _ sequences,c | .requesting _ _ _ sequences,c | .waiting _ _ _ sequences,c => sequences c
  | _,_ => 0

/-- What the holder `t` will still see to: that `c` flushes `v`. -/
def Duty (s : Tlb) (t c : Cpu) (v : Nat) : Work → Prop
  | .flushing a => a = v ∧ s.affects t v c = true
  | .targeting a => a = v ∧ s.affects t v c = true ∧ c ≠ t
  | .posting a targets id _ => a = v ∧ targets.getLsbD c = true ∧ (id ≤ c.val ∨ s.Unserved c v)
  | .requesting a targets id _ => a = v ∧ targets.getLsbD c = true ∧ (id.val ≤ c.val ∨ s.Unserved c v)
  | .waiting a targets id _ => a = v ∧ targets.getLsbD c = true ∧ id ≤ c.val ∧ s.Unserved c v
  | _ => False

def WorkOk (s : Tlb) (t : Cpu) : Work → Prop
  | .entering root => s.cr3 t = root.val
  | .updating _ | .flushing _ | .targeting _ => s.roots t ≠ 0
  | .requesting address targets id _ => s.address id = address ∧ targets.getLsbD id = true
  | _ => True

/-- Only between its two stores does a processor have another page table than its entry says. -/
def Entering (s : Tlb) (c : Cpu) : Prop := ∃ root, s.holder = some (c,.entering root)

structure Sound (s : Tlb) : Prop where
  roots : ∀ c, s.roots c = s.cr3 c ∨ s.Entering c
  counts : ∀ c, s.requested c = BitVec.ofNat 32 (s.posts c).length
  mail : ∀ c, ∃ k, s.completed c = BitVec.ofNat 32 k ∧ s.MailOk c k (s.nmi c)
  awaited : ∀ c, s.completed c ≠ s.requested c → ∃ t w, s.holder = some (t,w) ∧ Awaits w c
  sequences : ∀ t w, s.holder = some (t,w) → ∀ c, Awaits w c → sequence w c = s.requested c
  work : ∀ t w, s.holder = some (t,w) → s.WorkOk t w
  duty : ∀ c v, s.stale c v = true → ∃ t w, s.holder = some (t,w) ∧ s.Duty t c v w

theorem ofNat_ne_succ (k : Nat) : BitVec.ofNat 32 k ≠ BitVec.ofNat 32 (k + 1) := by
  intro h
  have h' := congrArg BitVec.toNat h
  simp only [BitVec.toNat_ofNat] at h'
  omega

theorem Sound.mailbox (h : s.Sound) (c : Cpu) : s.completed c = s.requested c ∧ s.posts c = s.served c ∨
    s.completed c ≠ s.requested c ∧
      (s.Unserved c (s.address c) ∨ ∃ seq, s.nmi c = .acking seq ∧ s.posts c = s.served c) := by
  obtain ⟨k,hk,hm⟩ := h.mail c
  have hcount := h.counts c
  have hclear : (s.served c).length = k → s.posts c = s.served c → s.completed c = s.requested c := by
    intro hlen heq
    rw [hk,hcount,heq,hlen]
  have hone : (s.served c).length = k → s.Unserved c (s.address c) → s.completed c ≠ s.requested c := by
    intro hlen heq
    rw [hk,hcount,heq,List.length_append,hlen]
    exact ofNat_ne_succ k
  have hboth : (s.served c).length = k → (s.posts c = s.served c ∨ s.Unserved c (s.address c)) →
      s.completed c = s.requested c ∧ s.posts c = s.served c ∨
      s.completed c ≠ s.requested c ∧
        (s.Unserved c (s.address c) ∨ ∃ seq, s.nmi c = .acking seq ∧ s.posts c = s.served c) := by
    rintro hlen (heq | hun)
    · exact .inl ⟨hclear hlen heq,heq⟩
    · exact .inr ⟨hone hlen hun,.inl hun⟩
  cases hn : s.nmi c with
  | idle =>
    rw [hn] at hm hboth
    exact hboth hm.1 hm.2
  | checking seq =>
    rw [hn] at hm hboth
    exact hboth hm.1 hm.2.1
  | fetching seq =>
    rw [hn] at hm
    exact .inr ⟨hone hm.1 hm.2.2,.inl hm.2.2⟩
  | flushing seq a =>
    rw [hn] at hm
    exact .inr ⟨hone hm.1 hm.2.2.1,.inl hm.2.2.1⟩
  | acking seq =>
    rw [hn] at hm
    refine .inr ⟨?_,.inr ⟨seq,rfl,hm.2.2⟩⟩
    rw [hk,hcount,hm.2.2,hm.1]
    exact ofNat_ne_succ k

theorem Sound.served_of_complete (h : s.Sound) (hc : s.completed c = s.requested c) :
    s.posts c = s.served c := by
  rcases h.mailbox c with ⟨-,heq⟩ | ⟨hne,-⟩
  · exact heq
  · exact absurd hc hne

theorem not_unserved (h : s.posts c = s.served c) : ¬ s.Unserved c v := by
  intro hun
  unfold Unserved at hun
  rw [h] at hun
  have hlen := congrArg List.length hun
  simp at hlen

section
variable (h : s.Sound) (hw : s.holder = some (t,w))
include h hw

theorem Sound.owes (hs : s.stale c v = true) : s.Duty t c v w := by
  obtain ⟨t',w',hw',hd⟩ := h.duty c v hs
  rw [hw] at hw'
  cases hw'
  exact hd

theorem Sound.goOn {w' : Work} (hne : ∀ root, w ≠ .entering root) (hok : s.WorkOk t w')
    (hawaits : ∀ c, s.completed c ≠ s.requested c → Awaits w c → Awaits w' c)
    (hsequence : ∀ c, Awaits w' c → Awaits w c ∧ sequence w' c = sequence w c)
    (hduty : ∀ c v, s.Duty t c v w → s.Duty t c v w' ∨ s.stale c v = false) : (s.goOn t w').Sound where
  roots := fun c => by
    refine (h.roots c).elim .inl fun ⟨root,hr⟩ => ?_
    rw [hw] at hr
    cases hr
    exact absurd rfl (hne root)
  counts := h.counts
  mail := fun c => by
    obtain ⟨k,hk,hm⟩ := h.mail c
    exact ⟨k,hk,hm⟩
  awaited := fun c hc => by
    obtain ⟨t',w'',hw',ha⟩ := h.awaited c hc
    rw [hw] at hw'
    cases hw'
    exact ⟨t,w',rfl,hawaits c hc ha⟩
  sequences := fun t' w'' hw' c ha => by
    cases hw'
    obtain ⟨ha',hseq⟩ := hsequence c ha
    rw [hseq]
    exact h.sequences t w hw c ha'
  work := fun t' w'' hw' => by
    cases hw'
    cases w' <;> exact hok
  duty := fun c v hstale => by
    obtain ⟨t',w'',hw',hd⟩ := h.duty c v hstale
    rw [hw] at hw'
    cases hw'
    rcases hduty c v hd with hd' | hno
    · refine ⟨t,w',rfl,?_⟩
      cases w' <;> exact hd'
    · exact absurd (show s.stale c v = true from hstale) (by rw [hno]; simp)

theorem Sound.complete {c : Cpu} (hno : ¬ Awaits w c) : s.completed c = s.requested c := by
  by_contra hne
  obtain ⟨t',w',hw',ha⟩ := h.awaited c hne
  rw [hw] at hw'
  cases hw'
  exact hno ha

theorem Sound.fresh (hno : ∀ c v, ¬ s.Duty t c v w) (c : Cpu) (v : Nat) : s.stale c v = false := by
  cases hs : s.stale c v with
  | false => rfl
  | true =>
    exact absurd (h.owes hw hs) (hno c v)

theorem Sound.root_eq (hne : ∀ root, w ≠ .entering root) (c : Cpu) : s.roots c = s.cr3 c := by
  refine (h.roots c).elim id fun ⟨root,hr⟩ => ?_
  rw [hw] at hr
  cases hr
  exact absurd rfl (hne root)

end

section
variable (h : s.Sound)
include h

/-- While nobody is waited for, the tables and the lock can change without the mailboxes. -/
theorem Sound.quiet (hidle : ∀ c, s.completed c = s.requested c) {roots cr3 : Cpu → Nat}
    {stale : Cpu → Nat → Bool} {holder : Option (Cpu × Work)}
    (hroots : ∀ c, roots c = cr3 c ∨ ∃ root, holder = some (c,.entering root))
    (hnext : ∀ t w, holder = some (t,w) → (∀ c, ¬ Awaits w c) ∧ { s with roots := roots, cr3 := cr3 }.WorkOk t w)
    (hduty : ∀ c v, stale c v = true → ∃ t w, holder = some (t,w) ∧
      { s with roots := roots, cr3 := cr3 }.Duty t c v w) :
    { s with roots := roots, cr3 := cr3, stale := stale, holder := holder }.Sound where
  roots := hroots
  counts := h.counts
  mail := fun c => by
    obtain ⟨k,hk,hm⟩ := h.mail c
    exact ⟨k,hk,hm⟩
  awaited := fun c hc => absurd (hidle c) hc
  sequences := fun t w hw c ha => absurd ha ((hnext t w hw).1 c)
  work := fun t w hw => by
    have hok := (hnext t w hw).2
    cases w <;> exact hok
  duty := fun c v hstale => by
    obtain ⟨t,w,hw,hd⟩ := hduty c v hstale
    refine ⟨t,w,hw,?_⟩
    cases w <;> exact hd

theorem Sound.acquire (hn : s.holder = none) (hok : s.WorkOk t w) (hne : ∀ c, ¬ Awaits w c) :
    (s.goOn t w).Sound := by
  have hfree : ∀ {p : Cpu × Work}, s.holder ≠ some p := fun hp => by cases hn.symm.trans hp
  refine h.quiet (fun c => ?_) (fun c => .inl ?_) (fun t' w' hw' => ?_) fun c v hstale => ?_
  · by_contra hc
    obtain ⟨t',w',hw',-⟩ := h.awaited c hc
    exact hfree hw'
  · exact (h.roots c).elim id fun ⟨root,hr⟩ => absurd hr hfree
  · cases hw'
    exact ⟨hne,hok⟩
  · obtain ⟨t',w',hw',-⟩ := h.duty c v hstale
    exact absurd hw' hfree

theorem Sound.switch {root : Root} (hw : s.holder = some (t,.switching root)) :
    (s.work t (.switching root)).Sound := by
  refine h.quiet (fun _ => h.complete hw id) (fun c => ?_) (fun t' w' hw' => ?_) fun c v hstale => ?_
  · by_cases hc : c = t
    · subst hc
      exact .inr ⟨root,rfl⟩
    left
    rw [update_of_ne hc]
    exact h.root_eq hw (nofun) c
  · cases hw'
    exact ⟨fun _ => id,update_self _ _ _⟩
  have hno := h.fresh hw (fun _ _ => id) c v
  by_cases hc : c = t
  · subst hc
    simp at hstale
  · simp [hc,hno] at hstale

theorem Sound.enter {root : Root} (hw : s.holder = some (t,.entering root)) :
    (s.work t (.entering root)).Sound := by
  refine h.quiet (fun _ => h.complete hw id) (fun c => .inl ?_) (fun t' w' hw' => ?_) fun c v hstale => ?_
  · by_cases hc : c = t
    · subst hc
      rw [update_self]
      exact (h.work c _ hw).symm
    rw [update_of_ne hc]
    refine (h.roots c).elim id fun ⟨root',hr⟩ => ?_
    rw [hw] at hr
    cases hr
    exact absurd rfl hc
  · cases hw'
    exact ⟨fun _ => id,trivial⟩
  · exact absurd (hstale.symm.trans (h.fresh hw (fun _ _ => id) c v)) (by simp)

theorem Sound.update {a : Nat} (hw : s.holder = some (t,.updating a)) :
    (s.work t (.updating a)).Sound := by
  refine h.quiet (fun _ => h.complete hw id) (fun c => .inl (h.root_eq hw (nofun) c))
    (fun t' w' hw' => ?_) fun c v hstale => ?_
  · cases hw'
    exact ⟨fun _ => id,h.work t (.updating a) hw⟩
  have hno := h.fresh hw (fun _ _ => id) c v
  refine ⟨t,_,rfl,?_⟩
  simp only [hno,Bool.and_eq_true,decide_eq_true_eq,ite_eq_left_iff,Bool.false_eq_true,imp_false,
    not_not] at hstale
  obtain ⟨rfl,ha⟩ := hstale
  exact ⟨rfl,ha⟩

theorem Sound.flushOwn {a : Nat} (hw : s.holder = some (t,.flushing a)) :
    (s.work t (.flushing a)).Sound := by
  refine h.quiet (fun _ => h.complete hw id) (fun c => .inl (h.root_eq hw (nofun) c))
    (fun t' w' hw' => ?_) fun c v hstale => ?_
  · cases hw'
    exact ⟨fun _ => id,h.work t (.flushing a) hw⟩
  have hold : s.stale c v = true := by
    by_cases hc : c = t
    · subst hc
      by_cases hv : v = a
      · subst hv
        simp [flush] at hstale
      · simpa [flush,hv] using hstale
    · simpa [flush,hc] using hstale
  obtain ⟨rfl,ha⟩ := h.owes hw hold
  refine ⟨t,_,rfl,rfl,ha,?_⟩
  rintro rfl
  simp [flush] at hstale

theorem targets_spec {a : Nat} (hw : s.holder = some (t,.targeting a)) (hc : s.affects t a c = true)
    (hne : c ≠ t) : (s.targets t a).getLsbD c.val = true := by
  have hup : s.roots t ≠ 0 := h.work t _ hw
  have hroot := h.root_eq hw (nofun)
  have hlt : c.val < 64 := c.isLt
  unfold affects at hc
  unfold targets
  rw [BitVec.getLsbD_and,BitVec.getLsbD_not,getLsbD_bit_of_ne hne]
  simp only [hlt,decide_true,Bool.not_false,Bool.and_true]
  split
  · rename_i hu
    rw [if_pos hu] at hc
    rw [rootMask,if_pos (by rw [← hroot]; exact hup),getLsbD_cpuBits,hroot c]
    exact hc
  rename_i hu
  rw [if_neg hu] at hc
  rw [rootAll,getLsbD_cpuBits]
  exact hc

theorem Sound.target {a : Nat} (hw : s.holder = some (t,.targeting a)) :
    (s.work t (.targeting a)).Sound := by
  refine h.goOn hw (nofun) trivial (fun c _ ha => ha.elim) (fun c ha => ?_) fun c v hd => ?_
  · exact absurd ha.2 (Nat.not_lt_zero _)
  obtain ⟨rfl,hc,hne⟩ := hd
  exact .inl ⟨rfl,targets_spec h hw hc hne,.inl (Nat.zero_le _)⟩

end

section
variable (h : s.Sound) {a : Nat} {targets : BitVec 64} {q : Cpu → BitVec 32}
include h

theorem Sound.post {id : Nat} (hw : s.holder = some (t,.posting a targets id q)) :
    (s.work t (.posting a targets id q)).Sound := by
  simp only [Tlb.work]
  split
  · rename_i hid
    split
    · rename_i hbit
      -- the mailbox is clear, so nobody reads the address
      have hclear : s.posts ⟨id,hid⟩ = s.served ⟨id,hid⟩ ∧
          s.completed ⟨id,hid⟩ = s.requested ⟨id,hid⟩ := by
        have hcomplete := h.complete (c := ⟨id,hid⟩) hw fun ha => Nat.lt_irrefl _ ha.2
        exact ⟨h.served_of_complete hcomplete,hcomplete⟩
      refine ⟨fun c => .inl (h.root_eq hw (nofun) c),h.counts,fun c => ?_,fun c hc => ?_,
        fun t' w' hw' c ha => ?_,fun t' w' hw' => ?_,fun c v hs => ?_⟩
      · obtain ⟨k,hk,hm⟩ := h.mail c
        refine ⟨k,hk,?_⟩
        by_cases hc : c = ⟨id,hid⟩
        · subst hc
          have hno := not_unserved (v := s.address ⟨id,hid⟩) hclear.1
          cases hn : s.nmi ⟨id,hid⟩ with
          | idle =>
            rw [hn] at hm
            exact ⟨hm.1,.inl hclear.1⟩
          | checking seq =>
            rw [hn] at hm
            exact ⟨hm.1,.inl hclear.1,.inl (hm.2.2.resolve_right fun h => hno h.2)⟩
          | fetching seq =>
            rw [hn] at hm
            exact absurd hm.2.2 hno
          | flushing seq a =>
            rw [hn] at hm
            exact absurd hm.2.2.1 hno
          | acking seq =>
            rw [hn] at hm
            exact hm
        have haddress : Function.update s.address ⟨id,hid⟩ a c = s.address c :=
          update_of_ne hc _ _
        cases hn : s.nmi c with
        | acking seq =>
          rw [hn] at hm
          exact hm
        | _ =>
          rw [hn] at hm
          simp only [MailOk,Unserved,haddress] at hm ⊢
          exact hm
      · obtain ⟨t',w',hw',ha⟩ := h.awaited c hc
        rw [hw] at hw'
        cases hw'
        exact ⟨t,_,rfl,ha⟩
      · cases hw'
        exact h.sequences t _ hw c ha
      · cases hw'
        exact ⟨update_self _ _ _,hbit⟩
      exact ⟨t,_,rfl,h.owes hw hs⟩
    rename_i hbit
    have hne : ∀ c : Cpu, targets.getLsbD c.val = true → c.val ≠ id := fun c hc he => by
      rw [he] at hc
      exact hbit hc
    refine h.goOn hw (nofun) trivial (fun c _ ha => ⟨ha.1,Nat.lt_succ_of_lt ha.2⟩)
      (fun c ha => ⟨⟨ha.1,?_⟩,rfl⟩) (fun c v hd => .inl ⟨hd.1,hd.2.1,hd.2.2.imp_left fun hle => ?_⟩)
    · have := hne c ha.1
      have hlt : c.val < id + 1 := ha.2
      omega
    · have := hne c hd.2.1
      omega
  rename_i hid
  have hlt : ∀ c : Cpu, c.val < id := fun c => Nat.lt_of_lt_of_le c.isLt (Nat.not_lt.mp hid)
  refine h.goOn hw (nofun) trivial (fun c _ ha => ⟨ha.1,Nat.zero_le _⟩)
    (fun c ha => ⟨⟨ha.1,hlt c⟩,rfl⟩) (fun c v hd => .inl ⟨hd.1,hd.2.1,Nat.zero_le _,?_⟩)
  exact hd.2.2.resolve_left (Nat.not_le.mpr (hlt c))

theorem Sound.request {id : Cpu} (hw : s.holder = some (t,.requesting a targets id q)) :
    (s.work t (.requesting a targets id q)).Sound := by
  obtain ⟨haddress,hbit⟩ := h.work t _ hw
  have hcomplete := h.complete (c := id) hw fun ha => Nat.lt_irrefl _ ha.2
  have hclear := h.served_of_complete hcomplete
  have hno := not_unserved (v := s.address id) hclear
  refine ⟨fun c => .inl (h.root_eq hw (nofun) c),fun c => ?_,fun c => ?_,fun c hc => ?_,
    fun t' w' hw' c ha => ?_,fun t' w' hw' => ?_,fun c v hs => ?_⟩
  · by_cases hc : c = id
    · subst hc
      simp only [Tlb.work,update_self,List.length_append,List.length_singleton]
      rw [h.counts c,BitVec.ofNat_add]
      rfl
    · simp only [Tlb.work,update_of_ne hc]
      exact h.counts c
  · obtain ⟨k,hk,hm⟩ := h.mail c
    refine ⟨k,hk,?_⟩
    by_cases hc : c = id
    · subst hc
      have hun : (s.work t (.requesting a targets c q)).Unserved c (s.address c) := by
        simp [Unserved,Tlb.work,hclear,haddress]
      cases hn : s.nmi c with
      | idle =>
        rw [hn] at hm
        simp only [Tlb.work,hn]
        exact ⟨hm.1,.inr hun⟩
      | checking seq =>
        rw [hn] at hm
        simp only [Tlb.work,hn]
        exact ⟨hm.1,.inr hun,.inl (hm.2.2.resolve_right fun h => hno h.2)⟩
      | fetching seq =>
        rw [hn] at hm
        exact absurd hm.2.2 hno
      | flushing seq a =>
        rw [hn] at hm
        exact absurd hm.2.2.1 hno
      | acking seq =>
        rw [hn] at hm
        rw [hk,h.counts,hclear,hm.1] at hcomplete
        exact absurd hcomplete (ofNat_ne_succ k)
    have hposts : Function.update s.posts id (s.posts id ++ [a]) c = s.posts c :=
      update_of_ne hc _ _
    cases hn : s.nmi c with
    | _ =>
      simp only [Tlb.work,hn,MailOk,Unserved,hposts] at hm ⊢
      exact hm
  · by_cases hcid : c = id
    · subst hcid
      exact ⟨t,_,rfl,hbit,Nat.lt_succ_self _⟩
    simp only [Tlb.work,update_of_ne hcid] at hc
    obtain ⟨t',w',hw',ha⟩ := h.awaited c hc
    rw [hw] at hw'
    cases hw'
    exact ⟨t,_,rfl,ha.1,Nat.lt_succ_of_lt ha.2⟩
  · cases hw'
    by_cases hcid : c = id
    · subst hcid
      simp [Tlb.work,sequence]
    have hlt : c.val < id.val := by
      have hle : c.val < id.val + 1 := ha.2
      have hval : c.val ≠ id.val := fun he => hcid (Fin.ext he)
      omega
    have hseq := h.sequences t _ hw c ⟨ha.1,hlt⟩
    simp only [Tlb.work,sequence,update_of_ne hcid] at hseq ⊢
    exact hseq
  · cases hw'
    trivial
  obtain ⟨rfl,hb,hd⟩ := h.owes hw hs
  refine ⟨t,_,rfl,rfl,hb,?_⟩
  by_cases hcid : c = id
  · subst hcid
    exact .inr (by simp [Unserved,Tlb.work,hclear])
  rcases hd with hle | hun
  · have hval : c.val ≠ id.val := fun he => hcid (Fin.ext he)
    exact .inl (by omega)
  · exact .inr (by simpa [Unserved,Tlb.work,hcid] using hun)

theorem Sound.wait {id : Nat} (hw : s.holder = some (t,.waiting a targets id q)) :
    (s.work t (.waiting a targets id q)).Sound := by
  -- past `id`, with nothing left to do for it
  have hpast : (∀ c : Cpu, c.val = id → targets.getLsbD c.val = true → s.completed c = s.requested c) →
      (s.goOn t (.waiting a targets (id + 1) q)).Sound := by
    intro hdone
    refine h.goOn hw (nofun) trivial (fun c hc ha => ⟨ha.1,?_⟩)
      (fun c ha => ⟨⟨ha.1,Nat.le_of_succ_le ha.2⟩,rfl⟩) (fun c v hd => .inl ?_)
    · have hle : id ≤ c.val := ha.2
      have hval : c.val ≠ id := fun he => hc (hdone c he ha.1)
      omega
    obtain ⟨rfl,hb,hle,hun⟩ := hd
    have hval : c.val ≠ id := fun he => not_unserved (h.served_of_complete (hdone c he hb)) hun
    exact ⟨rfl,hb,by omega,hun⟩
  simp only [Tlb.work]
  split
  · rename_i hid
    split
    · split
      · rename_i hcomplete
        refine hpast fun c hc hb => ?_
        obtain rfl : c = ⟨id,hid⟩ := Fin.ext hc
        rw [hcomplete]
        exact h.sequences t _ hw _ ⟨hb,le_rfl⟩
      · exact h
    rename_i hbit
    refine hpast fun c hc hb => ?_
    rw [hc] at hb
    exact absurd hb hbit
  rename_i hid
  have hlt : ∀ c : Cpu, ¬ id ≤ c.val := fun c =>
    Nat.not_le.mpr (Nat.lt_of_lt_of_le c.isLt (Nat.not_lt.mp hid))
  refine h.goOn hw (nofun) trivial (fun c _ ha => absurd ha.2 (hlt c))
    (fun c ha => ha.elim) fun c v hd => absurd hd.2.2.1 (hlt c)

end

theorem Sound.release (h : s.Sound) (hw : s.holder = some (t,w)) (hne : ∀ root, w ≠ .entering root)
    (hno : ∀ c, ¬ Awaits w c) (hduty : ∀ c v, ¬ s.Duty t c v w) : Sound { s with holder := none } := by
  refine h.quiet (fun c => h.complete hw (hno c)) (fun c => .inl (h.root_eq hw hne c))
    (fun t' w' hw' => ?_) fun c v hstale => ?_
  · cases hw'
  · exact absurd (hstale.symm.trans (h.fresh hw hduty c v)) (by simp)

theorem Sound.holderWork (h : s.Sound) (hw : s.holder = some (t,w)) : (s.work t w).Sound := by
  cases w with
  | switching root => exact h.switch hw
  | entering root => exact h.enter hw
  | updating a => exact h.update hw
  | flushing a => exact h.flushOwn hw
  | targeting a => exact h.target hw
  | posting a targets id q => exact h.post hw
  | requesting a targets id q => exact h.request hw
  | waiting a targets id q => exact h.wait hw
  | returned a => exact h.release hw (nofun) (fun _ => id) (fun _ _ => id)
  | leaving => exact h.release hw (nofun) (fun _ => id) (fun _ _ => id)

structure Interrupts (s s' : Tlb) (c : Cpu) : Prop where
  shared : s'.cr3 = s.cr3 ∧ s'.roots = s.roots ∧ s'.holder = s.holder ∧ s'.address = s.address ∧
    s'.requested = s.requested ∧ s'.posts = s.posts
  others : ∀ d, d ≠ c → s'.completed d = s.completed d ∧ s'.nmi d = s.nmi d ∧ s'.served d = s.served d
  stale : ∀ d v, s'.stale d v = true → s.stale d v = true

section
variable (h : s.Sound)
include h

theorem Sound.interrupt (hi : Interrupts s s' c)
    (hmail : ∃ k, s'.completed c = BitVec.ofNat 32 k ∧ s'.MailOk c k (s'.nmi c))
    (hcomplete : s.completed c = s.requested c → s'.completed c = s.requested c)
    (hserved : ∀ v, s'.stale c v = true → s.Unserved c v → s'.Unserved c v) : s'.Sound := by
  obtain ⟨hcr3,hroots,hholder,haddress,hrequested,hposts⟩ := hi.shared
  have hunserved : ∀ d v, s'.stale d v = true → s.Unserved d v → s'.Unserved d v := by
    intro d v hs hun
    by_cases hd : d = c
    · subst hd
      exact hserved v hs hun
    unfold Unserved at hun ⊢
    rw [hposts,(hi.others d hd).2.2]
    exact hun
  refine ⟨fun d => ?_,fun d => by rw [hrequested,hposts]; exact h.counts d,fun d => ?_,fun d hd => ?_,
    fun t w hw => ?_,fun t w hw => ?_,fun d v hs => ?_⟩
  · rw [hroots,hcr3]
    unfold Entering
    rw [hholder]
    exact h.roots d
  · by_cases hd : d = c
    · subst hd
      exact hmail
    obtain ⟨hc,hn,hsv⟩ := hi.others d hd
    obtain ⟨k,hk,hm⟩ := h.mail d
    refine ⟨k,by rw [hc,hk],?_⟩
    rw [hn]
    cases hnd : s.nmi d with
    | _ =>
      rw [hnd] at hm
      simp only [MailOk,Unserved,hposts,haddress,hsv] at hm ⊢
      exact hm
  · rw [hholder]
    refine h.awaited d fun heq => hd ?_
    rw [hrequested]
    by_cases hdc : d = c
    · subst hdc
      exact hcomplete heq
    · rw [(hi.others d hdc).1,heq]
  · rw [hholder] at hw
    rw [hrequested]
    exact h.sequences t w hw
  · rw [hholder] at hw
    have hok := h.work t w hw
    cases w with
    | entering root =>
      show s'.cr3 t = root.val
      rw [hcr3]
      exact hok
    | updating a | flushing a | targeting a =>
      show s'.roots t ≠ 0
      rw [hroots]
      exact hok
    | requesting a targets id q =>
      show s'.address id = a ∧ _
      rw [haddress]
      exact hok
    | _ => trivial
  obtain ⟨t,w,hw,hd⟩ := h.duty d v (hi.stale d v hs)
  refine ⟨t,w,by rw [hholder,hw],?_⟩
  have haffects : s'.affects t v d = s.affects t v d := by
    unfold affects
    rw [hcr3,hroots]
  cases w with
  | flushing a => exact ⟨hd.1,by rw [haffects]; exact hd.2⟩
  | targeting a => exact ⟨hd.1,by rw [haffects]; exact hd.2.1,hd.2.2⟩
  | posting a targets id q => exact ⟨hd.1,hd.2.1,hd.2.2.imp_right (hunserved d v hs)⟩
  | requesting a targets id q => exact ⟨hd.1,hd.2.1,hd.2.2.imp_right (hunserved d v hs)⟩
  | waiting a targets id q => exact ⟨hd.1,hd.2.1,hd.2.2.1,hunserved d v hs hd.2.2.2⟩
  | _ => exact hd.elim

theorem Sound.setNmi {x : Nmi}
    (hmail : ∀ k, s.completed c = BitVec.ofNat 32 k → s.MailOk c k (s.nmi c) → s.MailOk c k x) :
    Sound { s with nmi := Function.update s.nmi c x } := by
  obtain ⟨k,hk,hm⟩ := h.mail c
  refine h.interrupt ⟨⟨rfl,rfl,rfl,rfl,rfl,rfl⟩,fun d hd => ⟨rfl,update_of_ne hd _ _,rfl⟩,
    fun _ _ => id⟩ ⟨k,hk,?_⟩ id fun _ _ => id
  have hx := hmail k hk hm
  simp only [update_self]
  cases x <;> exact hx

theorem Sound.nmi (hn : s.nmi c = .idle) :
    Sound { s with nmi := Function.update s.nmi c (.checking (s.requested c)) } := by
  refine h.setNmi fun k _ hm => ?_
  rw [hn] at hm
  obtain ⟨hlen,hposts⟩ := hm
  refine ⟨hlen,hposts,?_⟩
  rw [h.counts c]
  rcases hposts with heq | hun
  · left
    rw [heq,hlen]
  right
  refine ⟨?_,hun⟩
  rw [show s.posts c = s.served c ++ [s.address c] from hun,List.length_append,hlen]
  rfl

theorem Sound.service (c : Cpu) : (s.service c).Sound := by
  obtain ⟨k,hk,hm⟩ := h.mail c
  unfold Tlb.service
  split
  · exact h
  · rename_i seq hn
    refine h.setNmi fun j hj hmj => ?_
    rw [hn] at hmj
    obtain ⟨hlen,hposts,hseq⟩ := hmj
    split
    · exact ⟨hlen,hposts⟩
    rename_i hne
    rw [hj] at hne
    obtain ⟨hseq,hun⟩ := hseq.resolve_left hne
    exact ⟨hlen,hseq,hun⟩
  · rename_i seq hn
    refine h.setNmi fun j hj hmj => ?_
    rw [hn] at hmj
    exact ⟨hmj.1,hmj.2.1,hmj.2.2,rfl⟩
  · rename_i seq a hn
    rw [hn] at hm
    obtain ⟨hlen,hseq,hun,rfl⟩ := hm
    refine h.interrupt ⟨⟨rfl,rfl,rfl,rfl,rfl,rfl⟩,fun d hd => ?_,fun d v hs => ?_⟩ ⟨k,hk,?_⟩ id
      fun v hs hv => ?_
    · exact ⟨rfl,update_of_ne hd _ _,update_of_ne hd _ _⟩
    · by_cases hd : d = c
      · subst hd
        by_cases hv : v = s.address d
        · simp [flush,hv] at hs
        · simpa [flush,hv] using hs
      · simpa [flush,hd] using hs
    · simp only [update_self,MailOk]
      exact ⟨by simp [hlen],hseq,hun⟩
    -- the address that was posted is the one that was flushed
    unfold Unserved at hun hv
    rw [hun] at hv
    have hva : s.address c = v := by simpa using hv
    subst hva
    simp [flush] at hs
  rename_i seq hn
  rw [hn] at hm
  obtain ⟨hlen,hseq,hposts⟩ := hm
  refine h.interrupt (c := c) ⟨⟨rfl,rfl,rfl,rfl,rfl,rfl⟩,fun d hd => ?_,fun _ _ => id⟩ ⟨k + 1,?_,?_⟩
    (fun _ => ?_) fun _ _ => id
  · exact ⟨update_of_ne hd _ _,update_of_ne hd _ _,rfl⟩
  · simpa using hseq
  · simp only [update_self,MailOk]
    exact ⟨hlen,.inl hposts⟩
  · simp only [update_self]
    rw [h.counts c,hposts,hlen,hseq]

theorem Sound.step (e : Event) : (s.step e).Sound := by
  cases e with
  | switchTo c root =>
    simp only [Tlb.step]
    split
    · rename_i hn
      exact h.acquire (Option.isNone_iff_eq_none.mp hn) trivial fun _ => id
    · exact h
  | update c a =>
    simp only [Tlb.step,Bool.and_eq_true,decide_eq_true_eq]
    split
    · rename_i hn
      exact h.acquire (Option.isNone_iff_eq_none.mp hn.1) hn.2 fun _ => id
    · exact h
  | abandon =>
    simp only [Tlb.step]
    split
    · rename_i t a hw
      exact h.goOn hw (nofun) trivial (fun _ _ ha => ha.elim) (fun _ ha => ha.elim)
        fun _ _ hd => hd.elim
    · exact h
  | work =>
    simp only [Tlb.step]
    split
    · rename_i t w hw
      exact h.holderWork hw
    · exact h
  | nmi c =>
    simp only [Tlb.step]
    split
    · rename_i hn
      exact h.nmi hn
    · exact h
  | service c => exact h.service c

end

theorem sound_init : init.Sound where
  roots := fun _ => .inl rfl
  counts := fun _ => rfl
  mail := fun _ => ⟨0,rfl,rfl,.inl rfl⟩
  awaited := fun _ h => absurd rfl h
  sequences := fun t w h => by cases h
  work := fun t w h => by cases h
  duty := fun c v h => by cases h

def Invalidates (v : Nat) : Work → Prop
  | .flushing a | .targeting a | .posting a _ _ _ | .requesting a _ _ _ | .waiting a _ _ _ => a = v
  | _ => False

theorem Duty.invalidates (h : s.Duty t c v w) : Invalidates v w := by
  cases w with
  | switching | entering | updating | returned | leaving => exact h.elim
  | _ => exact h.1

theorem cr3_step (hw : s.holder = some (t,w)) (hv : Invalidates v w) (e : Event) :
    (s.step e).cr3 = s.cr3 := by
  cases e with
  | switchTo c root => simp [step,hw]
  | update c a => simp [step,hw]
  | abandon =>
    simp only [step]
    split <;> rfl
  | work =>
    simp only [step,hw]
    cases w with
    | flushing | targeting | requesting => rfl
    | posting a targets id q =>
      simp only [work]
      repeat' split
      all_goals rfl
    | waiting a targets id q =>
      simp only [work]
      repeat' split
      all_goals rfl
    | _ => exact hv.elim
  | nmi c =>
    simp only [step]
    split <;> rfl
  | service c =>
    simp only [step,service]
    split <;> rfl

/-- In every state of every run a processor that may still use an old entry has an `invalidate` of it going on,
during which no processor switches to a page table. What a mailbox says is complete was flushed. -/
theorem tlb_shootdown (es : List Event) :
    let s := machine.run es
    (∀ c v, s.stale c v = true → ∃ t w, s.holder = some (t,w) ∧ Invalidates v w) ∧
    (∀ t v, s.holder = some (t,.returned v) → ∀ c a, s.stale c a = false) ∧
    (∀ t w v, s.holder = some (t,w) → Invalidates v w → ∀ e, (s.step e).cr3 = s.cr3) ∧
    (∀ c, ∃ k, s.completed c = BitVec.ofNat 32 k ∧ k ≤ (s.served c).length ∧
      s.served c <+: s.posts c ∧ (s.posts c).length ≤ k + 1 ∧
      s.requested c = BitVec.ofNat 32 (s.posts c).length ∧
      (s.completed c = s.requested c → s.served c = s.posts c)) := by
  intro s
  have h : s.Sound := machine.run_invariant sound_init (fun _ e hs => hs.step e) es
  refine ⟨fun c v hs => ?_,fun t v hw c a => h.fresh hw (fun _ _ => id) c a,fun t w v hw hv => cr3_step hw hv,
    fun c => ?_⟩
  · obtain ⟨t,w,hw,hd⟩ := h.duty c v hs
    exact ⟨t,w,hw,hd.invalidates⟩
  obtain ⟨k,hk,hm⟩ := h.mail c
  have hserved : s.served c <+: s.posts c ∧ k ≤ (s.served c).length ∧ (s.posts c).length ≤ k + 1 := by
    have hone : (s.served c).length = k → (s.posts c = s.served c ∨ s.Unserved c (s.address c)) →
        s.served c <+: s.posts c ∧ k ≤ (s.served c).length ∧ (s.posts c).length ≤ k + 1 := by
      rintro hlen (heq | hun)
      · rw [heq]
        exact ⟨List.prefix_refl _,by omega,by omega⟩
      unfold Unserved at hun
      rw [hun]
      exact ⟨List.prefix_append _ _,by omega,by simp [hlen]⟩
    cases hn : s.nmi c with
    | idle =>
      rw [hn] at hm
      exact hone hm.1 hm.2
    | checking seq =>
      rw [hn] at hm
      exact hone hm.1 hm.2.1
    | fetching seq =>
      rw [hn] at hm
      exact hone hm.1 (.inr hm.2.2)
    | flushing seq a =>
      rw [hn] at hm
      exact hone hm.1 (.inr hm.2.2.1)
    | acking seq =>
      rw [hn] at hm
      obtain ⟨hlen,-,heq⟩ := hm
      rw [heq]
      exact ⟨List.prefix_refl _,by omega,by omega⟩
  exact ⟨k,hk,hserved.2.1,hserved.1,hserved.2.2,h.counts c,fun hc => (h.served_of_complete hc).symm⟩

end Tlb
end Rucux.Memory
