import Rucux.Libc.Pthread

namespace Rucux.Libc.Pthreads
open Lib Function List
attribute [local simp] Pthreads.futexWake
variable {n : Nat} {s s' : Pthreads n} {t u : Fin n} {p q : Phase} {w : Word} {sel : List (Fin n)}
  {c i r k : Nat}

theorem ofNat_inj {a b : Nat} (h : BitVec.ofNat 32 a = BitVec.ofNat 32 b) (hle : a ≤ b)
    (hlt : b < a + 2^32) : a = b := by
  have h' := congrArg BitVec.toNat h
  simp only [BitVec.toNat_ofNat] at h'
  omega

theorem ofNat_eq_zero {a : Nat} (ha : a < 2^31) : BitVec.ofNat 32 a = 0 ↔ a = 0 := by
  refine ⟨fun h => ?_,fun h => by rw [h]; rfl⟩
  have h' := congrArg BitVec.toNat h
  simp only [BitVec.toNat_ofNat,BitVec.ofNat_eq_ofNat] at h'
  omega

def TicketOk (s : Pthreads n) (c : Nat) (seq : BitVec 32) (ticket : Nat) : Prop :=
  seq = BitVec.ofNat 32 ticket ∧ ticket ≤ s.total c ∧ s.total c < ticket + 2^32

def NextOk (s : Pthreads n) : Next → Prop
  | .condWait c _ seq ticket => s.TicketOk c seq ticket
  | .done | .rdlock _ | .wrlock _ => True

def CallerOk (s : Pthreads n) (t : Fin n) : Caller → Prop
  | .unlock r => r ∈ s.reads t ∨ r ∈ s.writes t
  | .program _ | .condWait _ _ | .rdlock _ | .wrlock _ => True

def Ok (s : Pthreads n) (t : Fin n) : Phase → Prop
  | .idle | .signalling _ _ => True
  | .locking k _ | .waiting k | .asleep k => s.CallerOk t k
  | .unlocking m k => m ∈ s.held t ∧ s.NextOk k
  | .waking _ k => s.NextOk k
  | .condReading _ i => .plain i ∈ s.held t
  | .condWaiting c _ seq ticket => s.TicketOk c seq ticket
  | .condAsleep c _ ticket => s.flushed c ≤ ticket ∧ ticket ≤ s.total c
  | .condWaking c _ ticket => ticket ≤ s.total c
  | .rdCheck r | .wrCheck r => .inner r ∈ s.held t
  | .rdLoad r | .wrCheckReaders r => .inner r ∈ s.held t ∧ s.writer r = 0
  | .rdStore r readers => .inner r ∈ s.held t ∧ s.writer r = 0 ∧ s.readers r = readers
  | .wrStore r => .inner r ∈ s.held t ∧ s.writer r = 0 ∧ s.readers r = 0
  | .unCheck r => .inner r ∈ s.held t ∧ (r ∈ s.reads t ∨ r ∈ s.writes t)
  | .unWriter r => .inner r ∈ s.held t ∧ r ∈ s.writes t
  | .unLoad r => .inner r ∈ s.held t ∧ r ∈ s.reads t
  | .unStore r readers => .inner r ∈ s.held t ∧ r ∈ s.reads t ∧ s.readers r = readers

/-- A thread that sees to it that somebody tries for `m`. -/
def Alerts (m : Mutex) : Phase → Prop
  | .waking m' _ => m' = m
  | .locking k woken => k.mutex = m ∧ woken = true
  | _ => False

structure Sound (s : Pthreads n) : Prop where
  mutexes : ∀ m, s.words (.mutex m) = 0 ∧ (gather s.held).count m = 0 ∨
    s.words (.mutex m) = 1 ∧ (gather s.held).count m = 1
  ok : ∀ t, s.Ok t (s.phases t)
  queued : ∀ w t, t ∈ s.queues w ↔ (s.phases t).sleepsOn = some w
  alerted : ∀ m, s.queues (.mutex m) ≠ [] → s.words (.mutex m) = 0 → ∃ t, Alerts m (s.phases t)
  seqs : ∀ c, s.words (.seq c) = BitVec.ofNat 32 (s.total c)
  flushed : ∀ c, s.flushed c ≤ s.total c
  readers : ∀ r, s.readers r = BitVec.ofNat 32 ((gather s.reads).count r)
  few : ∀ r, (gather s.reads).count r < 2^31
  writer : ∀ r, s.writer r = BitVec.ofNat 32 ((gather s.writes).count r)
  excludes : ∀ r, (gather s.writes).count r ≤ 1 ∧
    ((gather s.writes).count r = 1 → (gather s.reads).count r = 0)

theorem count_pos_of_mem {α : Type} [DecidableEq α] {f : Fin n → List α} {x : α} (h : x ∈ f t) :
    0 < (gather f).count x :=
  count_pos_iff.mpr (mem_gather.mpr ⟨t,h⟩)

theorem owner_unique {α : Type} [DecidableEq α] {f : Fin n → List α} {x : α}
    (h : (gather f).count x ≤ 1) (ht : x ∈ f t) (hu : x ∈ f u) : u = t := by
  by_contra hne
  have h1 := count_gather_update f t [] x
  have h2 := count_gather_update (update f t []) u [] x
  have h3 : 0 < (f t).count x := count_pos_iff.mpr ht
  have h4 : 0 < (f u).count x := count_pos_iff.mpr hu
  rw [update_of_ne hne] at h2
  simp only [count_nil] at h1 h2
  omega

variable {m : Mutex}

theorem Sound.holder_unique (h : s.Sound) (ht : m ∈ s.held t) (hu : m ∈ s.held u) : u = t := by
  refine owner_unique ?_ ht hu
  rcases h.mutexes m with ⟨-,h0⟩ | ⟨-,h1⟩ <;> omega

/-- What others rely on is not touched: their own lists, the read-write locks whose inner mutex they
have, and their numbers. -/
structure Spares (s s' : Pthreads n) (u : Fin n) : Prop where
  held : s'.held u = s.held u
  reads : s'.reads u = s.reads u
  writes : s'.writes u = s.writes u
  inner : ∀ r, .inner r ∈ s.held u → s'.writer r = s.writer r ∧ s'.readers r = s.readers r
  total : ∀ c, s.total c ≤ s'.total c
  ticket : ∀ c, ∀ k ∈ (s.phases u).ticket c, s.total c < k + 2^32 → s'.total c < k + 2^32
  flushed : ∀ c, (s.phases u).sleepsOn = some (.seq c) → s'.flushed c = s.flushed c

theorem NextOk.spares {k : Next} (h : s.NextOk k) (ht : ∀ c, s.total c ≤ s'.total c)
    (hk : ∀ c i seq ticket, k = .condWait c i seq ticket → s.total c < ticket + 2^32 →
      s'.total c < ticket + 2^32) : s'.NextOk k := by
  cases k with
  | condWait c i seq ticket =>
    obtain ⟨h1,h2,h3⟩ := h
    exact ⟨h1,Nat.le_trans h2 (ht c),hk c i seq ticket rfl h3⟩
  | _ => trivial

theorem Ok.spares (h : s.Ok u (s.phases u)) (hs : Spares s s' u) : s'.Ok u (s.phases u) := by
  have hticket : ∀ {c k}, (s.phases u).ticket c = some k → s.total c < k + 2^32 →
      s'.total c < k + 2^32 := fun {c k} hk => hs.ticket c k hk
  have hcaller : ∀ {k}, s.CallerOk u k → s'.CallerOk u k := by
    intro k hk
    cases k with
    | unlock r =>
      simp only [CallerOk,hs.reads,hs.writes] at hk ⊢
      exact hk
    | _ => trivial
  have hflushed := hs.flushed
  cases hp : s.phases u with
  | idle | signalling => trivial
  | locking k | waiting k | asleep k =>
    rw [hp] at h
    exact hcaller h
  | unlocking m k =>
    rw [hp] at h hticket
    refine ⟨by rw [hs.held]; exact h.1,h.2.spares hs.total fun c i seq ticket hk => ?_⟩
    subst hk
    exact hticket (by simp [Phase.ticket])
  | waking m k =>
    rw [hp] at h hticket
    refine NextOk.spares h hs.total fun c i seq ticket hk => ?_
    subst hk
    exact hticket (by simp [Phase.ticket])
  | condReading c i =>
    rw [hp] at h
    simp only [Ok,hs.held] at h ⊢
    exact h
  | condWaiting c i seq ticket =>
    rw [hp] at h hticket
    obtain ⟨h1,h2,h3⟩ := h
    exact ⟨h1,Nat.le_trans h2 (hs.total c),hticket (by simp [Phase.ticket]) h3⟩
  | condAsleep c i ticket =>
    rw [hp] at h hflushed
    exact ⟨by rw [hflushed c rfl]; exact h.1,Nat.le_trans h.2 (hs.total c)⟩
  | condWaking c broadcast ticket =>
    rw [hp] at h
    exact Nat.le_trans h (hs.total c)
  | rdCheck r | wrCheck r =>
    rw [hp] at h
    simp only [Ok,hs.held] at h ⊢
    exact h
  | rdLoad r | wrCheckReaders r | rdStore r readers | wrStore r =>
    rw [hp] at h
    obtain ⟨hw,hr⟩ := hs.inner r h.1
    simp only [Ok,hs.held,hw,hr] at h ⊢
    exact h
  | unCheck r | unWriter r | unLoad r =>
    rw [hp] at h
    simp only [Ok,hs.held,hs.reads,hs.writes] at h ⊢
    exact h
  | unStore r readers =>
    rw [hp] at h
    obtain ⟨hw,hr⟩ := hs.inner r h.1
    simp only [Ok,hs.held,hs.reads,hr] at h ⊢
    exact h

theorem Sound.change (h : s.Sound) (hphases : s'.phases = update s.phases t p)
    (hok : s'.Ok t p) (hspares : ∀ u, u ≠ t → Spares s s' u)
    (hsleep : (s.phases t).sleepsOn = none) (hsleep' : p.sleepsOn = none)
    (hqueues : s'.queues = s.queues)
    (halert : ∀ m, s'.words (.mutex m) = 0 → (s.words (.mutex m) ≠ 0 ∨ Alerts m (s.phases t)) →
      Alerts m p ∨ s.queues (.mutex m) = [] ∨ ∃ u, u ≠ t ∧ Alerts m (s.phases u))
    (hmutexes : ∀ m, s'.words (.mutex m) = 0 ∧ (gather s'.held).count m = 0 ∨
      s'.words (.mutex m) = 1 ∧ (gather s'.held).count m = 1)
    (hseqs : ∀ c, s'.words (.seq c) = BitVec.ofNat 32 (s'.total c))
    (hflushed : ∀ c, s'.flushed c ≤ s'.total c)
    (hreaders : ∀ r, s'.readers r = BitVec.ofNat 32 ((gather s'.reads).count r) ∧
      (gather s'.reads).count r < 2^31)
    (hwriter : ∀ r, s'.writer r = BitVec.ofNat 32 ((gather s'.writes).count r) ∧
      (gather s'.writes).count r ≤ 1 ∧
      ((gather s'.writes).count r = 1 → (gather s'.reads).count r = 0)) : s'.Sound := by
  refine ⟨hmutexes,fun u => ?_,fun w u => ?_,fun m hne h0 => ?_,hseqs,hflushed,fun r => (hreaders r).1,
    fun r => (hreaders r).2,fun r => (hwriter r).1,fun r => (hwriter r).2⟩
  · rw [hphases]
    by_cases hu : u = t
    · subst hu
      rwa [update_self]
    · rw [update_of_ne hu]
      exact (h.ok u).spares (hspares u hu)
  · rw [hqueues,h.queued w u,hphases]
    by_cases hu : u = t
    · subst hu
      rw [update_self,hsleep,hsleep']
    · rw [update_of_ne hu]
  rw [hqueues] at hne
  have hthen : Alerts m p ∨ s.queues (.mutex m) = [] ∨ (∃ u, u ≠ t ∧ Alerts m (s.phases u)) →
      ∃ u, Alerts m (s'.phases u) := by
    rintro (ha | hq | ⟨v,hvt,hv⟩)
    · exact ⟨t,by rw [hphases,update_self]; exact ha⟩
    · exact absurd hq hne
    · exact ⟨v,by rw [hphases,update_of_ne hvt]; exact hv⟩
  by_cases hold : s.words (.mutex m) = 0
  · obtain ⟨v,hv⟩ := h.alerted m hne hold
    by_cases hvt : v = t
    · subst hvt
      exact hthen (halert m h0 (.inr hv))
    · exact hthen (.inr (.inr ⟨v,hvt,hv⟩))
  · exact hthen (halert m h0 (.inl hold))

theorem spares_of_eq (h1 : s'.held = s.held) (h2 : s'.reads = s.reads) (h3 : s'.writes = s.writes)
    (h4 : s'.writer = s.writer) (h5 : s'.readers = s.readers) (h6 : s'.total = s.total)
    (h7 : s'.flushed = s.flushed) : Spares s s' u :=
  ⟨by rw [h1],by rw [h2],by rw [h3],fun r _ => by rw [h4,h5]; exact ⟨rfl,rfl⟩,fun c => by rw [h6],
    fun c k _ hk => by rw [h6]; exact hk,fun c _ => by rw [h7]⟩

theorem Sound.move (h : s.Sound) (hok : s.Ok t p) (hsleep : (s.phases t).sleepsOn = none)
    (hsleep' : p.sleepsOn = none)
    (halert : ∀ m, Alerts m (s.phases t) → s.words (.mutex m) = 0 → Alerts m p ∨
      s.queues (.mutex m) = [] ∨ ∃ u, u ≠ t ∧ Alerts m (s.phases u)) :
    (s.setPhase t p).Sound := by
  refine h.change rfl ?_ (fun u _ => spares_of_eq rfl rfl rfl rfl rfl rfl rfl) hsleep hsleep' rfl
    (fun m h0 hm => ?_) h.mutexes h.seqs h.flushed (fun r => ⟨h.readers r,h.few r⟩)
    (fun r => ⟨h.writer r,h.excludes r⟩)
  · cases p <;> exact hok
  rcases hm with hm | hm
  · exact absurd h0 hm
  · exact halert m hm h0

def quiet : Phase → Bool
  | .waking _ _ | .locking _ true => false
  | _ => true

theorem not_alerts (h : quiet p = true) (m : Mutex) : ¬ Alerts m p := by
  intro ha
  cases p with
  | locking k woken =>
    obtain ⟨-,rfl⟩ := ha
    cases h
  | waking m' k => cases h
  | _ => exact ha

section
variable (h : s.Sound)
include h

theorem Sound.ok_at (hp : s.phases t = q) : s.Ok t q := hp ▸ h.ok t

theorem Sound.pass (hp : s.phases t = q) (hok : s.Ok t p) (hsleep : q.sleepsOn = none)
    (hsleep' : p.sleepsOn = none) (hquiet : quiet q = true) : (s.setPhase t p).Sound := by
  subst hp
  exact h.move hok hsleep hsleep' fun m hm => absurd hm (not_alerts hquiet m)

theorem Sound.mutex_zero (h0 : s.words (.mutex m) = 0) : (gather s.held).count m = 0 := by
  rcases h.mutexes m with ⟨-,hc⟩ | ⟨h1,-⟩
  · exact hc
  rw [h0] at h1
  exact absurd h1 (by decide)

theorem Sound.acquire (h0 : s.words (.mutex m) = 0) (hsleep : (s.phases t).sleepsOn = none)
    (hsleep' : p.sleepsOn = none) (halert : ∀ m', Alerts m' (s.phases t) → m' = m ∨ Alerts m' p)
    (hwords : s'.words = update s.words (.mutex m) 1) (hheld : s'.held = update s.held t (m :: s.held t))
    (hphases : s'.phases = update s.phases t p) (hqueues : s'.queues = s.queues)
    (hrest : s'.reads = s.reads ∧ s'.writes = s.writes ∧ s'.writer = s.writer ∧ s'.readers = s.readers ∧
      s'.total = s.total ∧ s'.flushed = s.flushed)
    (hok : s'.Ok t p) : s'.Sound := by
  obtain ⟨h1,h2,h3,h4,h5,h6⟩ := hrest
  have hfree := h.mutex_zero h0
  refine h.change hphases hok (fun u hu => ?_) hsleep hsleep' hqueues (fun m' hz hm' => ?_) (fun m' => ?_)
    (fun c => ?_) (fun c => by rw [h6,h5]; exact h.flushed c)
    (fun r => by rw [h1,h4]; exact ⟨h.readers r,h.few r⟩)
    (fun r => by rw [h1,h2,h3]; exact ⟨h.writer r,h.excludes r⟩)
  · exact ⟨by rw [hheld,update_of_ne hu],by rw [h1],by rw [h2],fun r _ => by rw [h3,h4]; exact ⟨rfl,rfl⟩,
      fun c => by rw [h5],fun c k _ hk => by rw [h5]; exact hk,fun c _ => by rw [h6]⟩
  · rw [hwords] at hz
    by_cases hm : m' = m
    · subst hm
      rw [update_self] at hz
      exact absurd hz (by decide)
    rw [update_of_ne (by simpa using hm)] at hz
    rcases hm' with hne | ha
    · exact absurd hz hne
    · exact .inl ((halert m' ha).resolve_left hm)
  · have hcount := count_gather_update s.held t (m :: s.held t) m'
    rw [← hheld,count_cons] at hcount
    rw [hwords]
    by_cases hm : m' = m
    · subst hm
      rw [update_self]
      simp only [beq_self_eq_true,if_true] at hcount
      exact .inr ⟨rfl,by omega⟩
    rw [update_of_ne (by simpa using hm)]
    have hbeq : (m == m') = false := by simpa using Ne.symm hm
    simp only [hbeq,Bool.false_eq_true,if_false] at hcount
    have hsame : (gather s'.held).count m' = (gather s.held).count m' := by omega
    rw [hsame]
    exact h.mutexes m'
  · rw [hwords,h5,update_of_ne (by simp)]
    exact h.seqs c

theorem Sound.compareAndSwap {k : Caller} {woken : Bool} (hp : s.phases t = .locking k woken) :
    (s.compareAndSwap t k).Sound := by
  have hok := h.ok_at hp
  unfold Pthreads.compareAndSwap
  split
  · rename_i h0
    have hgo : ∀ p : Phase, p.sleepsOn = none → (∀ s' : Pthreads n, s'.held t = k.mutex :: s.held t →
        s'.reads = s.reads → s'.writes = s.writes → s'.Ok t p) →
        ({ s.setWord (.mutex k.mutex) 1 with
            held := update s.held t (k.mutex :: s.held t) }.setPhase t p).Sound := by
      intro p hs' hok'
      refine h.acquire (m := k.mutex) h0 (by rw [hp]; rfl) hs' (fun m' ha => ?_) rfl rfl rfl rfl
        ⟨rfl,rfl,rfl,rfl,rfl,rfl⟩ (hok' _ (by simp [setPhase]) rfl rfl)
      rw [hp] at ha
      exact .inl ha.1.symm
    cases k with
    | program i => exact hgo .idle rfl fun s' _ _ _ => trivial
    | condWait c i => exact hgo .idle rfl fun s' _ _ _ => trivial
    | rdlock r =>
      refine hgo (.rdCheck r) rfl fun s' hh _ _ => ?_
      show Mutex.inner r ∈ s'.held t
      rw [hh]
      exact mem_cons_self
    | wrlock r =>
      refine hgo (.wrCheck r) rfl fun s' hh _ _ => ?_
      show Mutex.inner r ∈ s'.held t
      rw [hh]
      exact mem_cons_self
    | unlock r =>
      refine hgo (.unCheck r) rfl fun s' hh hr hw => ?_
      show Mutex.inner r ∈ s'.held t ∧ (r ∈ s'.reads t ∨ r ∈ s'.writes t)
      rw [hh,hr,hw]
      exact ⟨mem_cons_self,hok⟩
  rename_i hne
  refine h.move hok (by rw [hp]; rfl) rfl (fun m ha h0 => ?_)
  rw [hp] at ha
  rw [← ha.1] at h0
  exact absurd h0 hne

theorem Sound.tryLock (hp : s.phases t = .idle) (i : Nat) : (s.tryLock t i).Sound := by
  unfold Pthreads.tryLock
  split
  · rename_i h0
    refine h.acquire (p := .idle) h0 (by rw [hp]; rfl) rfl (fun m' ha => ?_) rfl rfl ?_ rfl
      ⟨rfl,rfl,rfl,rfl,rfl,rfl⟩ trivial
    · rw [hp] at ha
      exact ha.elim
    · rw [← hp]
      exact (update_eq_self t s.phases).symm
  · exact h

theorem Sound.clear {k : Next} (hp : s.phases t = .unlocking m k) : (s.clear t m k).Sound := by
  have hok := h.ok_at hp
  obtain ⟨hheld,hnext⟩ := hok
  refine h.change (p := .waking m k) rfl ?_ (fun u hu => ?_) (by rw [hp]; rfl) rfl rfl (fun m' hz hm' => ?_)
    (fun m' => ?_) (fun c => ?_) h.flushed (fun r => ⟨h.readers r,h.few r⟩)
    (fun r => ⟨h.writer r,h.excludes r⟩)
  · cases k <;> exact hnext
  · refine ⟨?_,rfl,rfl,fun r _ => ⟨rfl,rfl⟩,fun c => le_rfl,fun c k _ hk => hk,fun c _ => rfl⟩
    simp [Pthreads.clear,hu,setWord]
  · by_cases hm : m' = m
    · exact .inl hm.symm
    simp only [Pthreads.clear,setWord,setPhase] at hz
    rw [update_of_ne (by simpa using hm)] at hz
    rcases hm' with hne | ha
    · exact absurd hz hne
    rw [hp] at ha
    exact ha.elim
  · have hcount := count_gather_update s.held t ((s.held t).erase m) m'
    simp only [Pthreads.clear,setWord,setPhase]
    by_cases hm : m' = m
    · subst hm
      rw [update_self]
      rw [count_erase_self] at hcount
      have hin : 0 < (s.held t).count m' := count_pos_iff.mpr hheld
      rcases h.mutexes m' with ⟨-,h0⟩ | ⟨-,h1⟩
      · omega
      · exact .inl ⟨rfl,by omega⟩
    rw [update_of_ne (by simpa using hm)]
    rw [count_erase_of_ne hm] at hcount
    have hsame : (gather (update s.held t ((s.held t).erase m))).count m' =
        (gather s.held).count m' := by omega
    rw [hsame]
    exact h.mutexes m'
  · exact h.seqs c

end

theorem Alerts.awake (h : Alerts m p) : p.sleepsOn = none := by
  cases p with
  | asleep k | condAsleep c i ticket => exact h.elim
  | _ => rfl

theorem Sound.sleep (h : s.Sound) (hok : s.Ok t p) (hw : ∀ m, w = .mutex m → s.words w ≠ 0)
    (hsleep : (s.phases t).sleepsOn = none) (hsleep' : p.sleepsOn = some w)
    (hquiet : quiet (s.phases t) = true) :
    Sound { s.setPhase t p with queues := update s.queues w (s.queues w ++ [t]) } := by
  refine ⟨h.mutexes,fun u => ?_,fun w' u => ?_,fun m hne h0 => ?_,h.seqs,h.flushed,h.readers,h.few,h.writer,
    h.excludes⟩
  · simp only [setPhase]
    by_cases hu : u = t
    · subst hu
      rw [update_self]
      cases p <;> exact hok
    · rw [update_of_ne hu]
      exact (h.ok u).spares (spares_of_eq rfl rfl rfl rfl rfl rfl rfl)
  · have hq := h.queued w' u
    simp only [setPhase]
    by_cases hu : u = t
    · subst hu
      rw [update_self,hsleep']
      rw [hsleep] at hq
      by_cases hw' : w' = w
      · subst hw'
        simp
      · rw [update_of_ne hw']
        simp [hq,Ne.symm hw']
    rw [update_of_ne hu,← hq]
    by_cases hw' : w' = w
    · subst hw'
      simp [hu]
    · rw [update_of_ne hw']
  have hold : s.queues (.mutex m) ≠ [] := by
    simp only at hne
    by_cases hm : Word.mutex m = w
    · exact absurd (hm ▸ h0) (hw m hm.symm)
    · rwa [update_of_ne hm] at hne
  obtain ⟨v,hv⟩ := h.alerted m hold h0
  refine ⟨v,?_⟩
  have hvt : v ≠ t := by
    rintro rfl
    exact not_alerts hquiet m hv
  simpa [setPhase,hvt] using hv

theorem Sound.futexWait (h : s.Sound) {val : BitVec 32} {asleep awake : Phase}
    (hasleep : s.words w = val → s.Ok t asleep ∧ ∀ m, w = .mutex m → val ≠ 0) (hawake : s.Ok t awake)
    (hsleep : (s.phases t).sleepsOn = none) (hsleep' : asleep.sleepsOn = some w)
    (hsleep'' : awake.sleepsOn = none) (hquiet : quiet (s.phases t) = true) :
    (s.futexWait t w val asleep awake).Sound := by
  unfold Pthreads.futexWait
  split
  · rename_i hval
    obtain ⟨hok,hne⟩ := hasleep hval
    exact h.sleep hok (fun m hm => by rw [hval]; exact hne m hm) hsleep hsleep' hquiet
  · exact h.pass rfl hawake hsleep hsleep'' hquiet

theorem wakeUp_sleepsOn (p : Phase) : (wakeUp p).sleepsOn = none := by
  cases p <;> rfl

theorem wakeUp_ok (h : s.Ok t p) : s.Ok t (wakeUp p) := by
  cases p with
  | condAsleep => trivial
  | _ => exact h

section
variable (h : s.Sound)
include h

theorem Sound.futexWake (hsel : ∀ u ∈ sel, u ∈ s.queues w) : (s.futexWake w sel).Sound := by
  have hasleep : ∀ u ∈ sel, (s.phases u).sleepsOn = some w := fun u hu => (h.queued w u).mp (hsel u hu)
  refine ⟨h.mutexes,fun u => ?_,fun w' u => ?_,fun m hne h0 => ?_,h.seqs,h.flushed,h.readers,h.few,h.writer,
    h.excludes⟩
  · have hok : (s.futexWake w sel).Ok u (s.phases u) :=
      (h.ok u).spares (spares_of_eq rfl rfl rfl rfl rfl rfl rfl)
    by_cases hu : u ∈ sel
    · simpa [hu] using wakeUp_ok hok
    · simpa [hu] using hok
  · have hq := h.queued w' u
    simp only [Pthreads.futexWake]
    by_cases hu : u ∈ sel
    · rw [if_pos hu,wakeUp_sleepsOn]
      by_cases hw' : w' = w
      · subst hw'
        simp [hu]
      · rw [update_of_ne hw',hq,hasleep u hu]
        simp [Ne.symm hw']
    rw [if_neg hu,← hq]
    by_cases hw' : w' = w
    · subst hw'
      simp [hu]
    · rw [update_of_ne hw']
  have hold : s.queues (.mutex m) ≠ [] := by
    intro hnil
    apply hne
    simp only [Pthreads.futexWake]
    by_cases hm : Word.mutex m = w
    · rw [hm,update_self,← hm,hnil]
      rfl
    · rw [update_of_ne hm,hnil]
  obtain ⟨v,hv⟩ := h.alerted m hold h0
  refine ⟨v,?_⟩
  have hout : v ∉ sel := fun hin => by
    have hnone := hv.awake
    rw [hasleep v hin] at hnone
    cases hnone
  simpa [hout] using hv

theorem Sound.waker_awake (hsel : ∀ u ∈ sel, u ∈ s.queues w) (hsleep : (s.phases t).sleepsOn = none) :
    (s.futexWake w sel).phases t = s.phases t := by
  have hout : t ∉ sel := fun hin => by
    rw [(h.queued w t).mp (hsel t hin)] at hsleep
    cases hsleep
  simp [hout]

theorem Sound.woken (hsel : Selects (s.queues (.mutex m)) sel 1) (hne : s.queues (.mutex m) ≠ []) :
    ∃ u ∈ sel, Alerts m ((s.futexWake (.mutex m) sel).phases u) := by
  obtain ⟨-,hmem,hlen⟩ := hsel
  have hpos := length_pos_iff.mpr hne
  obtain ⟨u,hu⟩ := exists_mem_of_length_pos (l := sel) (by omega)
  refine ⟨u,hu,?_⟩
  have hsleeps := (h.queued _ u).mp (hmem u hu)
  simp only [Pthreads.futexWake,if_pos hu]
  cases hp : s.phases u with
  | asleep k =>
    rw [hp] at hsleeps
    exact ⟨by simpa [Phase.sleepsOn] using hsleeps,rfl⟩
  | _ =>
    rw [hp] at hsleeps
    simp [Phase.sleepsOn] at hsleeps

theorem Sound.wakeMutex {k : Next} (hp : s.phases t = .waking m k)
    (hsel : Selects (s.queues (.mutex m)) sel 1) :
    ((s.futexWake (.mutex m) sel).proceed t k).Sound := by
  have h' := h.futexWake hsel.2.1
  have hsame : (s.futexWake (.mutex m) sel).phases t = .waking m k := by
    rw [h.waker_awake hsel.2.1 (by rw [hp]; rfl),hp]
  have hok := h'.ok t
  rw [hsame] at hok
  have hgo : ∀ p : Phase, p.sleepsOn = none → (s.futexWake (.mutex m) sel).Ok t p →
      ((s.futexWake (.mutex m) sel).setPhase t p).Sound := by
    intro p hs' hok'
    refine h'.move hok' (by rw [hsame]; rfl) hs' fun m' ha _ => .inr ?_
    rw [hsame] at ha
    have hm : m = m' := ha
    subst hm
    by_cases hne : s.queues (.mutex m) = []
    · left
      simp [hne]
    right
    obtain ⟨u,hu,hua⟩ := h.woken hsel hne
    refine ⟨u,?_,hua⟩
    rintro rfl
    have hsleeps := (h.queued _ u).mp (hsel.2.1 u hu)
    rw [hp] at hsleeps
    cases hsleeps
  cases k with
  | done => exact hgo .idle rfl trivial
  | condWait c i seq ticket => exact hgo (.condWaiting c i seq ticket) rfl hok
  | rdlock r => exact hgo (.locking (.rdlock r) false) rfl trivial
  | wrlock r => exact hgo (.locking (.wrlock r) false) rfl trivial

theorem Sound.signal {broadcast : Bool} (hp : s.phases t = .signalling c broadcast)
    (hvalid : ∀ u, ∀ k ∈ (s.phases u).ticket c, s.total c + 1 < k + 2^32) :
    (s.signal t c broadcast).Sound := by
  have htotal : ∀ d, s.total d ≤ (s.signal t c broadcast).total d := by
    intro d
    simp only [Pthreads.signal,setWord,setPhase]
    by_cases hd : d = c
    · subst hd
      rw [update_self]
      omega
    · rw [update_of_ne hd]
  refine h.change (p := .condWaking c broadcast (s.total c + 1)) rfl ?_ (fun u hu => ?_)
    (by rw [hp]; rfl) rfl rfl (fun m h0 hm => ?_) h.mutexes (fun d => ?_)
    (fun d => Nat.le_trans (h.flushed d) (htotal d)) (fun r => ⟨h.readers r,h.few r⟩)
    (fun r => ⟨h.writer r,h.excludes r⟩)
  · show s.total c + 1 ≤ (s.signal t c broadcast).total c
    simp [Pthreads.signal,setWord]
  · refine ⟨rfl,rfl,rfl,fun r _ => ⟨rfl,rfl⟩,htotal,fun d k hk hlt => ?_,fun d _ => rfl⟩
    simp only [Pthreads.signal,setWord,setPhase]
    by_cases hd : d = c
    · subst hd
      rw [update_self]
      exact hvalid u k hk
    · rwa [update_of_ne hd]
  · rcases hm with hne | ha
    · exact absurd h0 hne
    rw [hp] at ha
    exact ha.elim
  have hseq := h.seqs d
  simp only [Pthreads.signal,setWord,setPhase]
  by_cases hd : d = c
  · subst hd
    rw [update_self,update_self,hseq,BitVec.ofNat_add]
    rfl
  · rw [update_of_ne hd,update_of_ne (by simpa using hd)]
    exact hseq

end

theorem Selects.all {queue : List (Fin n)} {count : Nat} (h : Selects queue sel count)
    (hle : queue.length ≤ count) (hu : u ∈ queue) : u ∈ sel := by
  obtain ⟨hnodup,hmem,hlen⟩ := h
  have hperm : Perm sel queue :=
    (subperm_of_subset hnodup hmem).perm_of_length_le (by omega)
  exact hperm.mem_iff.mpr hu

theorem Sound.wakeCond (h : s.Sound) {broadcast : Bool} (hp : s.phases t = .condWaking c broadcast k)
    (hsel : Selects (s.queues (.seq c)) sel (wakeCount broadcast))
    (hfits : broadcast = true → (s.queues (.seq c)).length ≤ 0x7FFFFFFF) :
    ((s.futexWake (.seq c) sel).condReturn t c broadcast k).Sound := by
  have h' := h.futexWake hsel.2.1
  have hsame : (s.futexWake (.seq c) sel).phases t = .condWaking c broadcast k := by
    rw [h.waker_awake hsel.2.1 (by rw [hp]; rfl),hp]
  have hok := h'.ok t
  rw [hsame] at hok
  cases broadcast with
  | false => exact h'.pass (p := .idle) hsame trivial rfl rfl rfl
  | true =>
    -- with all of them out, no sleeper has a number below that of the broadcast
    have hempty : (s.futexWake (.seq c) sel).queues (.seq c) = [] := by
      simp only [Pthreads.futexWake,update_self,filter_eq_nil_iff,decide_eq_true_eq, not_not]
      intro u hu
      exact hsel.all (hfits rfl) hu
    refine h'.change (p := .idle) rfl trivial (fun u hu => ?_) (by rw [hsame]; rfl) rfl rfl
      (fun m h0 hm => ?_) h'.mutexes h'.seqs (fun d => ?_) (fun r => ⟨h'.readers r,h'.few r⟩)
      (fun r => ⟨h'.writer r,h'.excludes r⟩)
    · refine ⟨rfl,rfl,rfl,fun r _ => ⟨rfl,rfl⟩,fun d => le_rfl,fun d k _ hk => hk,fun d hd => ?_⟩
      have hdc : d ≠ c := by
        rintro rfl
        have hin := (h'.queued _ u).mpr hd
        rw [hempty] at hin
        cases hin
      simp [condReturn,hdc]
    · rcases hm with hne | ha
      · exact absurd h0 hne
      rw [hsame] at ha
      exact ha.elim
    have hd := h'.flushed d
    simp only [condReturn,if_true]
    by_cases hdc : d = c
    · subst hdc
      rw [update_self]
      exact Nat.max_le.mpr ⟨hd,hok⟩
    · rwa [update_of_ne hdc]

theorem count_update_cons {f : Fin n → List Nat} (x : Nat) :
    (gather (update f t (r :: f t))).count x = (gather f).count x + if r = x then 1 else 0 := by
  have h := count_gather_update f t (r :: f t) x
  rw [count_cons] at h
  simp only [beq_iff_eq] at h
  omega

theorem count_update_erase {f : Fin n → List Nat} (hr : r ∈ f t) (x : Nat) :
    (gather (update f t ((f t).erase r))).count x + (if r = x then 1 else 0) = (gather f).count x := by
  have h := count_gather_update f t ((f t).erase r) x
  by_cases hx : r = x
  · subst hx
    have hpos : 0 < (f t).count r := count_pos_iff.mpr hr
    rw [count_erase_self] at h
    rw [if_pos rfl]
    omega
  rw [count_erase_of_ne (Ne.symm hx)] at h
  rw [if_neg hx]
  omega

section
variable (h : s.Sound)
include h

theorem Sound.writer_zero : s.writer r = 0 ↔ (gather s.writes).count r = 0 := by
  have hle := (h.excludes r).1
  rw [h.writer r]
  exact ofNat_eq_zero (by omega)

theorem Sound.readers_zero : s.readers r = 0 ↔ (gather s.reads).count r = 0 := by
  rw [h.readers r]
  exact ofNat_eq_zero (h.few r)

theorem Sound.store (hin : .inner r ∈ s.held t) (hp : s.phases t = q) (hsleep : q.sleepsOn = none)
    (hquiet : quiet q = true)
    (hphases : s'.phases = update s.phases t (.unlocking (.inner r) .done))
    (hsame : s'.words = s.words ∧ s'.queues = s.queues ∧ s'.held = s.held ∧ s'.total = s.total ∧ s'.flushed = s.flushed)
    (hlists : ∀ u, u ≠ t → s'.reads u = s.reads u ∧ s'.writes u = s.writes u)
    (hother : ∀ x, x ≠ r → s'.readers x = s.readers x ∧ s'.writer x = s.writer x ∧
      (gather s'.reads).count x = (gather s.reads).count x ∧
      (gather s'.writes).count x = (gather s.writes).count x)
    (hreaders : s'.readers r = BitVec.ofNat 32 ((gather s'.reads).count r) ∧ (gather s'.reads).count r < 2^31)
    (hwriter : s'.writer r = BitVec.ofNat 32 ((gather s'.writes).count r) ∧
      (gather s'.writes).count r ≤ 1 ∧ ((gather s'.writes).count r = 1 → (gather s'.reads).count r = 0)) :
    s'.Sound := by
  subst hp
  obtain ⟨h1,h2,h3,h4,h5⟩ := hsame
  refine h.change hphases ⟨by rw [h3]; exact hin,trivial⟩ (fun u hu => ?_) hsleep rfl h2
    (fun m h0 hm => ?_) (by rw [h1,h3]; exact h.mutexes) (by rw [h1,h4]; exact h.seqs)
    (by rw [h4,h5]; exact h.flushed) (fun x => ?_) (fun x => ?_)
  · refine ⟨by rw [h3],(hlists u hu).1,(hlists u hu).2,fun x hx => ?_,fun d => by rw [h4],
      fun d k _ hk => by rw [h4]; exact hk,fun d _ => by rw [h5]⟩
    -- the inner mutex has one holder
    have hxr : x ≠ r := by
      rintro rfl
      exact hu (h.holder_unique hin hx)
    exact ⟨(hother x hxr).2.1,(hother x hxr).1⟩
  · rw [h1] at h0
    rcases hm with hne | ha
    · exact absurd h0 hne
    · exact absurd ha (not_alerts hquiet m)
  · by_cases hx : x = r
    · subst hx
      exact hreaders
    obtain ⟨e1,-,e3,-⟩ := hother x hx
    rw [e1,e3]
    exact ⟨h.readers x,h.few x⟩
  by_cases hx : x = r
  · subst hx
    exact hwriter
  obtain ⟨-,e2,e3,e4⟩ := hother x hx
  rw [e2,e3,e4]
  exact ⟨h.writer x,h.excludes x⟩

theorem Sound.rdStore {v : BitVec 32} (hp : s.phases t = .rdStore r v)
    (hfits : (gather s.reads).count r + 1 < 2^31) :
    Sound { (s.storeReaders r (v + 1)).leave t r .done with
      reads := update s.reads t (r :: s.reads t) } := by
  obtain ⟨hin,hw,hv⟩ := h.ok_at hp
  have hnone := h.writer_zero.mp hw
  refine h.store hin hp rfl rfl rfl ⟨rfl,rfl,rfl,rfl,rfl⟩
    (fun u hu => ⟨update_of_ne hu _ _,rfl⟩) (fun x hx => ?_) ?_
    ⟨h.writer r,(h.excludes r).1,fun h1 => ?_⟩
  · refine ⟨update_of_ne hx _ _,rfl,?_,rfl⟩
    rw [count_update_cons,if_neg (Ne.symm hx),Nat.add_zero]
  · refine ⟨?_,?_⟩
    · rw [count_update_cons,if_pos rfl,BitVec.ofNat_add,← h.readers r,hv]
      exact update_self _ _ _
    · rw [count_update_cons,if_pos rfl]
      exact hfits
  · have h1' : (gather s.writes).count r = 1 := h1
    omega

theorem Sound.wrStore (hp : s.phases t = .wrStore r) : Sound { (s.storeWriter r 1).leave t r .done with
      writes := update s.writes t (r :: s.writes t) } := by
  obtain ⟨hin,hw,hr⟩ := h.ok_at hp
  have hnone := h.writer_zero.mp hw
  refine h.store hin hp rfl rfl rfl ⟨rfl,rfl,rfl,rfl,rfl⟩
    (fun u hu => ⟨rfl,update_of_ne hu _ _⟩) (fun x hx => ?_) ⟨h.readers r,h.few r⟩ ⟨?_,?_,?_⟩
  · refine ⟨rfl,update_of_ne hx _ _,rfl,?_⟩
    rw [count_update_cons,if_neg (Ne.symm hx),Nat.add_zero]
  · rw [count_update_cons,if_pos rfl,hnone]
    exact update_self _ _ _
  · rw [count_update_cons,if_pos rfl,hnone]
  · intro _
    exact h.readers_zero.mp hr

theorem Sound.unWriter (hp : s.phases t = .unWriter r) : Sound { (s.storeWriter r 0).leave t r .done with
      writes := update s.writes t ((s.writes t).erase r) } := by
  obtain ⟨hin,hw⟩ := h.ok_at hp
  have hle := (h.excludes r).1
  have hone := count_update_erase hw r
  rw [if_pos rfl] at hone
  have hzero : (gather (update s.writes t ((s.writes t).erase r))).count r = 0 := by omega
  refine h.store hin hp rfl rfl rfl ⟨rfl,rfl,rfl,rfl,rfl⟩
    (fun u hu => ⟨rfl,update_of_ne hu _ _⟩) (fun x hx => ?_) ⟨h.readers r,h.few r⟩ ⟨?_,?_,?_⟩
  · refine ⟨rfl,update_of_ne hx _ _,rfl,?_⟩
    have hsame := count_update_erase hw x
    rwa [if_neg (Ne.symm hx),Nat.add_zero] at hsame
  · rw [hzero]
    exact update_self _ _ _
  · exact Nat.le_trans (Nat.le_of_eq hzero) (Nat.zero_le _)
  intro h1
  rw [hzero] at h1
  cases h1

theorem Sound.unStore {v : BitVec 32} (hp : s.phases t = .unStore r v) :
    Sound { (s.storeReaders r (v - 1)).leave t r .done with
      reads := update s.reads t ((s.reads t).erase r) } := by
  obtain ⟨hin,hr,hv⟩ := h.ok_at hp
  have hone := count_update_erase hr r
  rw [if_pos rfl] at hone
  have hfew := h.few r
  refine h.store hin hp rfl rfl rfl ⟨rfl,rfl,rfl,rfl,rfl⟩
    (fun u hu => ⟨update_of_ne hu _ _,rfl⟩) (fun x hx => ?_) ⟨?_,?_⟩
    ⟨h.writer r,(h.excludes r).1,fun h1 => ?_⟩
  · refine ⟨update_of_ne hx _ _,rfl,?_,rfl⟩
    have hsame := count_update_erase hr x
    rwa [if_neg (Ne.symm hx),Nat.add_zero] at hsame
  · have hreaders := h.readers r
    rw [← hone,BitVec.ofNat_add,hv] at hreaders
    have hless : v - 1 = BitVec.ofNat 32 ((gather (update s.reads t ((s.reads t).erase r))).count r) := by
      rw [hreaders]
      exact BitVec.add_sub_cancel _ _
    rw [← hless]
    exact update_self _ _ _
  · show (gather (update s.reads t ((s.reads t).erase r))).count r < 2^31
    omega
  · have hzero := (h.excludes r).2 h1
    omega

theorem Sound.next (hvalid : s.SignalOk (s.phases t)) (hfits : s.RoomOk (s.phases t)) :
    (s.next t).Sound := by
  have hok := h.ok t
  unfold Pthreads.next
  split
  · exact h
  · exact h
  · exact h
  · exact h
  · exact h
  case _ k woken hp => exact h.compareAndSwap hp
  case _ k hp =>
    rw [hp] at hok
    exact h.futexWait (fun _ => ⟨hok,fun m hm => by decide⟩) hok (by rw [hp]; rfl) rfl rfl
      (by rw [hp]; rfl)
  case _ m k hp => exact h.clear hp
  case _ c i hp =>
    rw [hp] at hok
    refine h.pass hp ⟨hok,h.seqs c,le_rfl,?_⟩ rfl rfl rfl
    omega
  case _ c i seq ticket hp =>
    rw [hp] at hok
    obtain ⟨hseq,hle,hlt⟩ := hok
    refine h.futexWait (fun hval => ⟨?_,fun m hm => by cases hm⟩) trivial (by rw [hp]; rfl) rfl rfl
      (by rw [hp]; rfl)
    -- the number is the same, so there was no signal since
    have hsame : ticket = s.total c := by
      rw [h.seqs c,hseq] at hval
      exact ofNat_inj hval.symm hle hlt
    exact ⟨by rw [hsame]; exact h.flushed c,hle⟩
  case _ c broadcast hp =>
    rw [hp] at hvalid
    exact h.signal hp hvalid
  case _ r hp =>
    rw [hp] at hok
    split
    · exact h.pass hp ⟨hok,trivial⟩ rfl rfl rfl
    rename_i hw
    exact h.pass hp ⟨hok,not_not.mp hw⟩ rfl rfl rfl
  case _ r hp =>
    rw [hp] at hok
    exact h.pass hp ⟨hok.1,hok.2,rfl⟩ rfl rfl rfl
  case _ r v hp =>
    rw [hp] at hfits
    exact h.rdStore hp hfits
  case _ r hp =>
    rw [hp] at hok
    split
    · exact h.pass hp ⟨hok,trivial⟩ rfl rfl rfl
    rename_i hw
    exact h.pass hp ⟨hok,not_not.mp hw⟩ rfl rfl rfl
  case _ r hp =>
    rw [hp] at hok
    split
    · exact h.pass hp ⟨hok.1,trivial⟩ rfl rfl rfl
    rename_i hr
    exact h.pass hp ⟨hok.1,hok.2,not_not.mp hr⟩ rfl rfl rfl
  case _ r hp => exact h.wrStore hp
  case _ r hp =>
    rw [hp] at hok
    obtain ⟨hin,hhas⟩ := hok
    split
    · rename_i hw
      -- a writer leaves no reader
      refine h.pass hp ⟨hin,hhas.resolve_left fun hr => ?_⟩ rfl rfl rfl
      have hpos := count_pos_of_mem hr
      have hwrites : (gather s.writes).count r ≠ 0 := fun h0 => hw (h.writer_zero.mpr h0)
      have hle := (h.excludes r).1
      have hzero := (h.excludes r).2 (by omega)
      omega
    rename_i hw
    refine h.pass hp ⟨hin,hhas.resolve_right fun hwr => ?_⟩ rfl rfl rfl
    have hpos := count_pos_of_mem hwr
    have hzero := h.writer_zero.mp (not_not.mp hw)
    omega
  case _ r hp => exact h.unWriter hp
  case _ r hp =>
    rw [hp] at hok
    obtain ⟨hin,hr⟩ := hok
    split
    · exact h.pass hp ⟨hin,hr,rfl⟩ rfl rfl rfl
    · exact h.pass hp ⟨hin,trivial⟩ rfl rfl rfl
  case _ r v hp => exact h.unStore hp

theorem Sound.wake (hvalid : s.WakeOk sel (s.phases t)) (hfits : s.RoomOk (s.phases t)) :
    (s.wake t sel).Sound := by
  unfold Pthreads.wake
  split
  case _ m k hp =>
    rw [hp] at hvalid
    exact h.wakeMutex hp hvalid
  case _ c broadcast k hp =>
    rw [hp] at hvalid hfits
    refine h.wakeCond hp hvalid fun hb => ?_
    subst hb
    exact hfits
  case _ => exact h

theorem Sound.begin (hok : s.phases t = .idle → s.Ok t p) (hsleep : p.sleepsOn = none) :
    (s.begin t p).Sound := by
  unfold Pthreads.begin
  split
  · rename_i hp
    exact h.pass hp (hok hp) rfl hsleep rfl
  · exact h

theorem Sound.step (e : Event n) (hvalid : s.Valid e) (hfits : s.Fits e) : (s.step e).Sound := by
  cases e with
  | lock t i => exact h.begin (fun _ => trivial) rfl
  | trylock t i =>
    simp only [Pthreads.step]
    split
    · rename_i hp
      exact h.tryLock hp i
    · exact h
  | unlock t i => exact h.begin (fun hp => ⟨hvalid hp,trivial⟩) rfl
  | condWait t c i => exact h.begin (fun hp => hvalid hp) rfl
  | condSignal t c => exact h.begin (fun _ => trivial) rfl
  | condBroadcast t c => exact h.begin (fun _ => trivial) rfl
  | rdlock t r => exact h.begin (fun _ => trivial) rfl
  | wrlock t r => exact h.begin (fun _ => trivial) rfl
  | rwUnlock t r => exact h.begin (fun hp => hvalid hp) rfl
  | next t => exact h.next hvalid hfits
  | wake t sel => exact h.wake hvalid hfits

end

theorem gather_nil {α : Type} : gather (fun _ : Fin n => ([] : List α)) = [] := by
  simp [gather]

theorem sound_init : (init n).Sound where
  mutexes := fun m => .inl ⟨rfl,by simp [init,gather_nil]⟩
  ok := fun t => trivial
  queued := fun w t => by simp [init,Phase.sleepsOn]
  alerted := fun m hne => absurd rfl hne
  seqs := fun c => rfl
  flushed := fun c => le_rfl
  readers := fun r => by simp [init,gather_nil]
  few := fun r => by simp [init,gather_nil]
  writer := fun r => by simp [init,gather_nil]
  excludes := fun r => by simp [init,gather_nil]

theorem sound_run {es : List (Event n)} (h : (machine n).Along Allowed (init n) es) :
    ((machine n).run es).Sound :=
  (machine n).runFrom_invariant Allowed (fun _ e hs he => hs.step e he.1 he.2) sound_init es h

theorem flushed_condReturn (s : Pthreads n) (t : Fin n) (d : Nat) (broadcast : Bool) (k : Nat) :
    s.flushed c ≤ (s.condReturn t d broadcast k).flushed c := by
  unfold condReturn
  split
  · by_cases hc : c = d
    · subst hc
      simp
    · simp [hc]
  · exact le_rfl

theorem flushed_step (s : Pthreads n) (e : Event n) : s.flushed c ≤ (s.step e).flushed c := by
  have hbegin : ∀ (t : Fin n) (p : Phase), (s.begin t p).flushed c = s.flushed c := by
    intro t p
    unfold begin
    split <;> rfl
  have hnext : ∀ t : Fin n, (s.next t).flushed c = s.flushed c := by
    intro t
    unfold next compareAndSwap futexWait
    repeat' split
    all_goals rfl
  cases e with
  | next t => exact (hnext t).ge
  | wake t sel =>
    simp only [step,wake]
    split
    · rename_i m k hp
      cases k <;> exact le_rfl
    · exact flushed_condReturn (s.futexWake _ sel) t _ _ _
    · exact le_rfl
  | trylock t i =>
    simp only [step,tryLock]
    repeat' split
    all_goals exact le_rfl
  | _ => exact (hbegin _ _).ge

theorem flushed_runFrom (es : List (Event n)) (s : Pthreads n) :
    s.flushed c ≤ ((machine n).runFrom s es).flushed c := by
  induction es generalizing s with
  | nil => exact le_rfl
  | cons e es ih => exact Nat.le_trans (flushed_step s e) (ih _)

theorem flushed_broadcast (hp : s.phases t = .condWaking c true k) :
    k ≤ (s.step (.wake t sel)).flushed c := by
  simp [step,wake,hp,condReturn]

/-- In `pthread_cond_wait` on `c`, and not kept there: past the sleep, or before it with a number that
is no longer current. -/
def Released (s : Pthreads n) (c : Nat) (u : Fin n) : Prop :=
  (s.phases u).relocks c = true ∨
    (s.phases u).sleepsOn = none ∧ ∃ k, (s.phases u).ticket c = some k ∧ k < s.total c

theorem Sound.outdated (h : s.Sound) {seq : BitVec 32} (hp : s.phases t = .condWaiting c i seq k)
    (hk : k < s.total c) : s.words (.seq c) ≠ seq := by
  obtain ⟨hseq,hle,hlt⟩ := h.ok_at hp
  intro heq
  rw [h.seqs c,hseq] at heq
  have hsame := ofNat_inj heq.symm hle hlt
  omega

theorem wake_condWaking (hp : s.phases t = .condWaking c false k) (hu : u ≠ t) :
    (s.step (.wake t sel)).phases u = if u ∈ sel then wakeUp (s.phases u) else s.phases u := by
  simp [step,wake,hp,condReturn,setPhase,futexWake,hu]

theorem Sound.released (h : s.Sound) (hp : s.phases t = .condWaking c false k)
    (hvalid : s.Valid (.wake t sel))
    (hu : (s.phases u).relocks c = true ∨ ∃ j, (s.phases u).ticket c = some j ∧ j < k) :
    ∃ v, Released (s.step (.wake t sel)) c v := by
  have hsel : Selects (s.queues (.seq c)) sel 1 := by
    have hsel := hvalid
    simp only [Valid,hp] at hsel
    exact hsel
  have hok := h.ok_at hp
  have hut : u ≠ t := by
    rintro rfl
    rw [hp] at hu
    simp [Phase.relocks,Phase.ticket] at hu
  have htotal : (s.step (.wake t sel)).total = s.total := by
    simp [Pthreads.step,Pthreads.wake,hp,condReturn,setPhase,Pthreads.futexWake]
  by_cases hasleep : (s.phases u).sleepsOn = some (.seq c)
  · -- somebody sleeps, so the wake gets one out
    have hin := (h.queued _ u).mpr hasleep
    have hpos : 0 < (s.queues (.seq c)).length := length_pos_of_mem hin
    obtain ⟨v,hv⟩ := exists_mem_of_length_pos (l := sel) (by have := hsel.2.2; omega)
    have hvs := (h.queued _ v).mp (hsel.2.1 v hv)
    have hvt : v ≠ t := by
      rintro rfl
      rw [hp] at hvs
      cases hvs
    refine ⟨v,.inl ?_⟩
    rw [wake_condWaking hp hvt,if_pos hv]
    cases hpv : s.phases v with
    | condAsleep d i j =>
      rw [hpv] at hvs
      simpa [Phase.sleepsOn,wakeUp,Phase.relocks] using hvs
    | _ =>
      rw [hpv] at hvs
      simp [Phase.sleepsOn] at hvs
  have hout : u ∉ sel := fun hin => hasleep ((h.queued _ u).mp (hsel.2.1 u hin))
  refine ⟨u,?_⟩
  unfold Released
  rw [wake_condWaking hp hut,if_neg hout,htotal]
  rcases hu with hu | ⟨j,hj,hlt⟩
  · exact .inl hu
  refine .inr ⟨?_,j,hj,Nat.lt_of_lt_of_le hlt hok⟩
  cases hpu : s.phases u with
  | asleep k =>
    rw [hpu] at hj
    cases hj
  | condAsleep d i j' =>
    rw [hpu] at hj hasleep
    have hd : d = c := by
      by_contra hne
      simp [Phase.ticket,hne] at hj
    exact absurd (by rw [hd]; rfl) hasleep
  | _ => rfl

/-- In every state of every run: a mutex has one holder, and if a thread sleeps on one whose word is 0, some thread
is to wake it or to try again. A writer has its lock alone. Nobody sleeps on after a later broadcast, and a signal
releases some thread if one waits. -/
theorem pthread_synchronization (es : List (Event n)) (h : (machine n).Along Allowed (init n) es) :
    let s := (machine n).run es
    (∀ m t u, m ∈ s.held t → m ∈ s.held u → u = t) ∧
    (∀ k t, s.phases t = .asleep k → s.words (.mutex k.mutex) = 0 →
      ∃ u, (∃ j, s.phases u = .waking k.mutex j) ∨ ∃ k', k'.mutex = k.mutex ∧ s.phases u = .locking k' true) ∧
    (∀ r t, r ∈ s.writes t → (∀ u, r ∉ s.reads u) ∧ ∀ u, r ∈ s.writes u → u = t) ∧
    (∀ es₁ es₂ t sel c k, es = es₁ ++ .wake t sel :: es₂ →
      ((machine n).run es₁).phases t = .condWaking c true k →
      ∀ u i j, s.phases u = .condAsleep c i j → k ≤ j) ∧
    (∀ es₁ t sel c k u, es = es₁ ++ [.wake t sel] →
      ((machine n).run es₁).phases t = .condWaking c false k →
      ((((machine n).run es₁).phases u).relocks c = true ∨
        ∃ j, (((machine n).run es₁).phases u).ticket c = some j ∧ j < k) →
      ∃ v, s.Released c v) ∧
    (∀ t c i seq k, s.phases t = .condWaiting c i seq k → k < s.total c → s.words (.seq c) ≠ seq) := by
  intro s
  have hs : s.Sound := sound_run h
  refine ⟨fun m t u ht hu => hs.holder_unique ht hu,fun k t hk h0 => ?_,fun r t ht => ⟨fun u hu => ?_,?_⟩,?_,
    ?_,fun t c i seq k hp hk => hs.outdated hp hk⟩
  · have hin := (hs.queued (.mutex k.mutex) t).mpr (by rw [hk]; rfl)
    obtain ⟨u,hu⟩ := hs.alerted k.mutex (ne_nil_of_mem hin) h0
    refine ⟨u,?_⟩
    cases hp : s.phases u with
    | waking m j =>
      rw [hp] at hu
      exact .inl ⟨j,by rw [show m = k.mutex from hu]⟩
    | locking k' woken =>
      rw [hp] at hu
      exact .inr ⟨k',hu.1,by rw [hu.2]⟩
    | _ =>
      rw [hp] at hu
      exact hu.elim
  · have hw := count_pos_of_mem ht
    have hr := count_pos_of_mem hu
    have hle := (hs.excludes r).1
    have hzero := (hs.excludes r).2 (by omega)
    omega
  · intro u hu
    exact owner_unique (hs.excludes r).1 ht hu
  · intro es₁ es₂ t sel c k he hp u i j hu
    have hok := hs.ok u
    rw [hu] at hok
    have hrun : s = (machine n).runFrom (((machine n).run es₁).step (.wake t sel)) es₂ := by
      show (machine n).run es = _
      rw [he,Machine.run_append]
      rfl
    have hflushed := flushed_runFrom (c := c) es₂ (((machine n).run es₁).step (.wake t sel))
    rw [← hrun] at hflushed
    exact Nat.le_trans (flushed_broadcast hp) (Nat.le_trans hflushed hok.1)
  intro es₁ t sel c k u he hp hu
  have halong := h
  rw [he,Machine.along_append] at halong
  have hs₁ : ((machine n).run es₁).Sound := sound_run halong.1
  have hrun : s = ((machine n).run es₁).step (.wake t sel) := by
    show (machine n).run es = _
    rw [he,Machine.run_concat]
    rfl
  rw [hrun]
  exact hs₁.released hp halong.2.1.1 hu

def contention : List (Event 2) :=
  let first : Fin 2 := ⟨0,Nat.zero_lt_two⟩
  let second : Fin 2 := ⟨1,Nat.one_lt_two⟩
  [.lock first 0,.next first,.lock second 0,.next second,.next second,.unlock first 0,.next first]

theorem contention_allowed : (machine 2).Along Allowed (init 2) contention :=
  ⟨⟨trivial,trivial⟩,⟨trivial,trivial⟩,⟨trivial,trivial⟩,⟨trivial,trivial⟩,⟨trivial,trivial⟩,
    ⟨fun _ => mem_singleton.mpr rfl,trivial⟩,⟨trivial,trivial⟩,trivial⟩

theorem pthread_synchronization_contention :
    ((machine 2).run contention).phases 1 = .asleep (.program 0) ∧
    ∃ u, (∃ j, ((machine 2).run contention).phases u = .waking (.plain 0) j) ∨
      ∃ k : Caller, k.mutex = .plain 0 ∧ ((machine 2).run contention).phases u = .locking k true :=
  ⟨by decide +kernel,(pthread_synchronization contention contention_allowed).2.1 (.program 0) 1
    (by decide +kernel) (by decide +kernel)⟩

end Rucux.Libc.Pthreads
