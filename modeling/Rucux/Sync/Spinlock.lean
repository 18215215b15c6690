import Rucux.Lib.Machine
import Mathlib.Order.Interval.Finset.Nat

/-! The ticket lock. A step is one atomic access of `lock`, `try_lock` or `unlock`, by the thread that the event
names; where it cannot make that access, nothing happens. -/

namespace Rucux.Sync
open Lib Function

/-- Tickets are also numbered without wrapping, which nothing reads: `drawn` of them were handed out and
`served` were given back. -/
inductive Spinlock.Phase where
  | idle
  | waiting (ticket : BitVec 16) (number : Nat)
  | trying (expected : BitVec 16) (number : Nat)
  | holding (number : Nat)

structure Spinlock (n : Nat) where
  nextTicket : BitVec 16
  nowServing : BitVec 16
  phase : Fin n → Spinlock.Phase
  drawn : Nat
  served : Nat

namespace Spinlock
variable {n : Nat} {s : Spinlock n} {t : Fin n} {k : Nat}

inductive Event (n : Nat) where
  | draw (t : Fin n)
  | spin (t : Fin n)
  | unlock (t : Fin n)
  | load (t : Fin n)
  | compare (t : Fin n)

def step (s : Spinlock n) : Event n → Spinlock n
  | .draw t =>
    match s.phase t with
    | .idle => { s with
        nextTicket := s.nextTicket+1, drawn := s.drawn+1
        phase := update s.phase t (.waiting s.nextTicket s.drawn) }
    | _ => s
  | .spin t =>
    match s.phase t with
    | .waiting ticket number =>
      if s.nowServing = ticket then { s with phase := update s.phase t (.holding number) } else s
    | _ => s
  | .unlock t =>
    match s.phase t with
    | .holding _ => { s with
        nowServing := s.nowServing+1, served := s.served+1, phase := update s.phase t .idle }
    | _ => s
  | .load t =>
    match s.phase t with
    | .idle => { s with phase := update s.phase t (.trying s.nowServing s.served) }
    | _ => s
  | .compare t =>
    match s.phase t with
    | .trying expected _ =>
      if s.nextTicket = expected then { s with
        nextTicket := expected+1, drawn := s.drawn+1, phase := update s.phase t (.holding s.drawn) }
      else { s with phase := update s.phase t .idle }
    | _ => s

def machine (n : Nat) : Machine (Spinlock n) (Event n) := ⟨⟨0,0,fun _ => .idle,0,0⟩,step⟩

/-- The number of the ticket that a thread holds or waits with. -/
def Phase.owned : Phase → Option Nat
  | .waiting _ k | .holding k => some k
  | .idle | .trying _ _ => none

structure Sound (s : Spinlock n) : Prop where
  next : s.nextTicket = BitVec.ofNat 16 s.drawn
  serving : s.nowServing = BitVec.ofNat 16 s.served
  order : s.served ≤ s.drawn
  range : ∀ t k, (s.phase t).owned = some k → s.served ≤ k ∧ k < s.drawn
  distinct : ∀ t u k, (s.phase t).owned = some k → (s.phase u).owned = some k → t = u
  covered : ∀ k, s.served ≤ k → k < s.drawn → ∃ t, (s.phase t).owned = some k
  waits : ∀ t ticket k, s.phase t = .waiting ticket k → ticket = BitVec.ofNat 16 k
  tries : ∀ t e k, s.phase t = .trying e k → e = BitVec.ofNat 16 k ∧ k ≤ s.served
  holds : ∀ t k, s.phase t = .holding k → k = s.served

theorem ofNat_inj {a b : Nat} (h : BitVec.ofNat 16 a = BitVec.ofNat 16 b) (hab : a ≤ b) (hlt : b-a < 65536) :
    a = b := by
  have := congrArg BitVec.toNat h
  simp only [BitVec.toNat_ofNat] at this
  omega

theorem Sound.few (h : s.Sound) : s.drawn-s.served ≤ n := by
  choose f hf using fun k : Finset.Ico s.served s.drawn =>
    h.covered k (Finset.mem_Ico.mp k.2).1 (Finset.mem_Ico.mp k.2).2
  have hinj : Injective f := fun a b he =>
    Subtype.ext (Option.some_inj.mp ((hf a).symm.trans (he ▸ hf b)))
  simpa using Fintype.card_le_of_injective f hinj

theorem Sound.served (h : s.Sound) (hn : n < 65536) (ht : s.phase t = .waiting s.nowServing k) :
    k = s.served := by
  have hk := h.range t k (by rw [ht]; rfl)
  have hfew := h.few
  exact (ofNat_inj (h.serving.symm.trans (h.waits t _ k ht)) hk.1 (by omega)).symm

/-- Fewer tickets than a ticket has values lie between the load of a `try_lock` and its comparison. -/
def Fresh (s : Spinlock n) : Event n → Prop
  | .compare t => ∀ e k, s.phase t = .trying e k → s.drawn-k < 65536
  | _ => True

theorem Sound.free (h : s.Sound) {e : BitVec 16}
    (he : s.Fresh (.compare t)) (ht : s.phase t = .trying e k) (hx : s.nextTicket = e) : s.drawn = s.served := by
  obtain ⟨hex,hle⟩ := h.tries t e k ht
  have horder := h.order
  have := ofNat_inj (hex.symm.trans (hx.symm.trans h.next)) (by omega) (he e k ht)
  omega

theorem ofNat_succ (k : Nat) : BitVec.ofNat 16 (k+1) = BitVec.ofNat 16 k + 1 := BitVec.ofNat_add k 1

theorem Sound.compare (h : s.Sound) (he : s.Fresh (.compare t)) : (s.step (.compare t)).Sound := by
  simp only [Spinlock.step]
  split
  · rename_i expected number ht
    have hfree := h.free he ht
    cases h
    split <;> constructor <;> simp only [update_apply] <;> grind [Phase.owned,ofNat_succ]
  · exact h

theorem Sound.step (h : s.Sound) (hn : n < 65536) (e : Event n) (he : s.Fresh e) :
    (s.step e).Sound := by
  cases e with
  | draw t | unlock t | load t =>
    simp only [Spinlock.step]
    split
    · cases h
      constructor <;> simp only [update_apply] <;> grind [Phase.owned,ofNat_succ]
    · exact h
  | spin t =>
    simp only [Spinlock.step]
    split
    · rename_i ticket number ht
      split
      · have hfirst := h.served hn (‹s.nowServing = ticket› ▸ ht)
        cases h
        constructor <;> simp only [update_apply] <;> grind [Phase.owned]
      · exact h
    · exact h
  | compare t => exact h.compare he

theorem Sound.run (hn : n < 65536) (es : List (Event n)) (hes : (machine n).Along Fresh (machine n).initial es) :
    ((machine n).run es).Sound := by
  refine (machine n).runFrom_invariant Fresh (fun s e h he => h.step hn e he) ?_ es hes
  constructor <;> simp [machine,Phase.owned]

theorem lockers_take_turns (n : Nat) (hn : n < 65536) (es : List (Event n))
    (hes : (machine n).Along Fresh (machine n).initial es) :
    let s := (machine n).run es
    (∀ t u j k, s.phase t = .holding j → s.phase u = .holding k → t = u) ∧
    (∀ t ticket j, s.phase t = .waiting ticket j → (s.step (.spin t)).phase t = .holding j →
      ∀ u ticket' k, s.phase u = .waiting ticket' k → j ≤ k) ∧
    ∀ t e k j, s.phase t = .trying e k → s.Fresh (.compare t) → (s.step (.compare t)).phase t = .holding j →
      ∀ u, (s.phase u).owned = none := by
  intro s
  have h : s.Sound := .run hn es hes
  refine ⟨fun t u j k ht hu => ?_,fun t ticket j ht hstep u ticket' k hu => ?_,fun t e k j ht he hstep u => ?_⟩
  · rw [h.holds t j ht] at ht
    rw [h.holds u k hu] at hu
    exact h.distinct t u _ (by rw [ht]; rfl) (by rw [hu]; rfl)
  · simp only [Spinlock.step,ht] at hstep
    split at hstep
    · rename_i hx
      have hj : j = s.served := h.served hn (hx ▸ ht)
      exact hj ▸ (h.range u k (by rw [hu]; rfl)).1
    · rw [ht] at hstep
      cases hstep
  simp only [Spinlock.step,ht] at hstep
  split at hstep
  · have hfree := h.free he ht ‹_›
    refine Option.eq_none_iff_forall_ne_some.mpr fun l hl => ?_
    have := h.range u l hl
    omega
  · simp at hstep

/-- A `try_lock` takes the lock, and `lock` waits for it. -/
def tried (t u : Fin n) : List (Event n) := [.draw t,.spin t,.unlock t,.load u,.compare u,.draw t]

theorem tried_fresh : (machine 2).Along Fresh (machine 2).initial (tried 0 1) := by
  refine ⟨trivial,trivial,trivial,trivial,fun e k h => ?_,trivial,trivial⟩
  obtain ⟨-,rfl⟩ := Phase.trying.inj (show Phase.trying 1 1 = .trying e k from h)
  decide

theorem lockers_take_turns_tried : ((machine 2).run (tried 0 1)).phase 1 = .holding 1 ∧
    ∀ u k, ((machine 2).run (tried 0 1)).phase u = .holding k → u = 1 :=
  ⟨rfl,fun u k hu => (lockers_take_turns 2 (by decide) (tried 0 1) tried_fresh).1 u 1 k 1 hu rfl⟩

/-- A round of `lock` and `unlock` on a free lock moves both counters by one. -/
theorem round (s : Spinlock n) (t : Fin n) (ht : s.phase t = .idle) (hs : s.nextTicket = s.nowServing) (k : Nat) :
    (machine n).runFrom s (List.replicate k [.draw t,.spin t,.unlock t]).flatten =
      { s with
        nextTicket := s.nextTicket+BitVec.ofNat 16 k, nowServing := s.nowServing+BitVec.ofNat 16 k
        drawn := s.drawn+k, served := s.served+k } := by
  induction k generalizing s with
  | zero => simp
  | succ k ih =>
    have hone : (machine n).runFrom s [.draw t,.spin t,.unlock t] =
        { s with
          nextTicket := s.nextTicket+1, nowServing := s.nowServing+1
          drawn := s.drawn+1, served := s.served+1 } := by
      simp [machine,Machine.runFrom,Spinlock.step,ht,hs,update_eq_self_iff]
    rw [List.replicate_succ,List.flatten_cons,Machine.runFrom_append,hone,ih]
    · simp only [BitVec.ofNat_add,BitVec.add_assoc,BitVec.add_comm (BitVec.ofNat 16 k),Nat.add_assoc,
        Nat.add_comm 1]
      rfl
    · exact ht
    · simp [hs]

theorem two_holders : ∃ (es : List (Event 2)) (j k : Nat),
    ((machine 2).run es).phase 0 = .holding j ∧ ((machine 2).run es).phase 1 = .holding k := by
  refine ⟨[.load 0] ++ (List.replicate 65535 [.draw 1,.spin 1,.unlock 1]).flatten ++
    [.draw 1,.spin 1,.compare 0],65536,65535,?_⟩
  rw [Machine.run_append,Machine.run_append,round _ _ rfl rfl]
  exact ⟨rfl,rfl⟩

/-- No ticket is lost: while a thread waits, the ticket that is served is that of a thread which holds the lock or
takes it when it looks next, and fewer than `n` unlocks come before the waiting thread's turn. -/
theorem waiters_progress (n : Nat) (hn : n < 65536) (es : List (Event n))
    (hes : (machine n).Along Fresh (machine n).initial es) (t : Fin n) (ticket : BitVec 16) (k : Nat) :
    let s := (machine n).run es
    s.phase t = .waiting ticket k → k-s.served < n ∧
      ∃ u, s.phase u = .holding s.served ∨ (s.step (.spin u)).phase u = .holding s.served := by
  intro s ht
  have h : s.Sound := .run hn es hes
  have hk := h.range t k (by rw [ht]; rfl)
  have hfew := h.few
  obtain ⟨u,hu⟩ := h.covered s.served le_rfl (by omega)
  refine ⟨by omega,u,?_⟩
  cases hp : s.phase u with
  | idle | trying => simp [hp,Phase.owned] at hu
  | holding j =>
    rw [h.holds u j hp]
    exact .inl rfl
  | waiting ticket' j =>
    obtain rfl : j = s.served := by simpa [hp,Phase.owned] using hu
    simp [Spinlock.step,hp,h.serving,h.waits u _ _ hp]

theorem waiters_progress_tried : let s := (machine 2).run (tried 0 1)
    s.phase 0 = .waiting 2 2 ∧
      ∃ u, s.phase u = .holding s.served ∨ (s.step (.spin u)).phase u = .holding s.served :=
  ⟨rfl,(waiters_progress 2 (by decide) (tried 0 1) tried_fresh 0 2 2 rfl).2⟩

end Spinlock
end Rucux.Sync
