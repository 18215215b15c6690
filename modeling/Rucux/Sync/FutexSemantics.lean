import Mathlib.Order.Fin.Basic
import Rucux.Sync.Futex

namespace Rucux.Sync.Futexes
open Scheduler Function List FutexCall
attribute [local simp] Futexes.setCall Futexes.setThread setBucket setLock
variable {n : Nat} {space : Fin n → UInt64} {s : Futexes n} {t u : Fin n} {addr : UInt64}
  {w : Waiter n} {ws : List (Waiter n)} {i : Nat}

theorem unlink_eq (h : (ws.map (·.thread)).Nodup) (t : Fin n) :
    unlink t ws = ws.filter fun w => !decide (w.thread = t) := by
  induction ws with
  | nil => rfl
  | cons w ws ih =>
    rw [map_cons,nodup_cons] at h
    rw [unlink,filter_cons]
    by_cases ht : w.thread = t
    · have hall : (ws.filter fun w => !decide (w.thread = t)) = ws := by
        refine filter_eq_self.mpr fun v hv => ?_
        have : v.thread ≠ t := fun he => h.1 (by rw [ht,← he]; exact mem_map_of_mem hv)
        simpa using this
      simp only [ht,if_true,decide_true,Bool.not_true,Bool.false_eq_true,if_false,hall]
    · simp [ht,ih h.2]

theorem wakeLoop_spec (addrSpace addr : UInt64) (count woken : Nat) (ws : List (Waiter n)) :
    (wakeLoop addrSpace addr count woken ws).2 =
        (ws.filter (·.waitsFor addrSpace addr)).take (count - woken) ∧
      (wakeLoop addrSpace addr count woken ws).1.filter (·.waitsFor addrSpace addr) =
        (ws.filter (·.waitsFor addrSpace addr)).drop (count - woken) ∧
      (wakeLoop addrSpace addr count woken ws).1.filter (fun w => !w.waitsFor addrSpace addr) =
        ws.filter (fun w => !w.waitsFor addrSpace addr) ∧
      (wakeLoop addrSpace addr count woken ws).1.Sublist ws := by
  induction ws generalizing woken with
  | nil => simp [wakeLoop]
  | cons w ws ih =>
    rw [wakeLoop]
    by_cases hk : woken < count
    · rw [if_pos hk]
      by_cases hw : w.waitsFor addrSpace addr = true
      · obtain ⟨h1,h2,h3,h4⟩ := ih (woken+1)
        have hsub : count - woken = count - (woken+1) + 1 := by omega
        rw [if_pos hw,hsub]
        refine ⟨by simp [h1,hw],by simp [h2,hw],by simp [h3,hw],h4.trans (sublist_cons_self w ws)⟩
      obtain ⟨h1,h2,h3,h4⟩ := ih woken
      rw [if_neg hw]
      refine ⟨by simp [h1,hw],by simp [h2,hw],by simp [h3,hw],h4.cons_cons w⟩
    · have hsub : count - woken = 0 := by omega
      simp [if_neg hk,hsub]

theorem foldl_unblock (h : (ws.map (·.thread)).Nodup) (s : Futexes n) :
    (ws.foldl (fun s w => s.unblock w.thread) s) = { s with
      threads := fun u => if u ∈ ws.map (·.thread) then (s.threads u).unblock else s.threads u
      woken := fun u => if u ∈ ws.map (·.thread) then true else s.woken u } := by
  induction ws generalizing s with
  | nil => rfl
  | cons w ws ih =>
    obtain ⟨hw,hrest⟩ := nodup_cons.mp h
    rw [foldl_cons,ih hrest]
    simp only [unblock,setThread,map_cons,mem_cons]
    congr 1
    · funext u
      by_cases hu : u = w.thread
      · subst hu
        simp [hw]
      · simp [hu]
    funext u
    by_cases hu : u = w.thread
    · subst hu
      simp
    · simp [hu]

structure Sound (space : Fin n → UInt64) (s : Futexes n) : Prop where
  chained : ∀ i, ∀ w ∈ s.buckets i, i = futexHash w.addrSpace w.addr ∧
    w.addrSpace = space w.thread ∧ s.calls w.thread = .asleep w.addr ∧ s.woken w.thread = false
  once : ∀ i, ((s.buckets i).map (·.thread)).Nodup
  locked : ∀ i t, s.locks i = some t → ∃ addr, s.calls t = .enrolling addr ∧ i = futexHash (space t) addr
  holds : ∀ t addr, s.calls t = .enrolling addr → s.locks (futexHash (space t) addr) = some t
  /-- Whoever sleeps is in its bucket, or a wake has taken it out. -/
  sleeping : ∀ t addr, s.calls t = .asleep addr →
    (s.threads t).interruptibleWait = true ∧ (s.threads t).state ≠ .terminated ∧
    (⟨t,addr,space t⟩ ∈ s.buckets (futexHash (space t) addr) ∧
        ((s.threads t).state ≠ .blocked → (s.threads t).fatalSignalPending = true) ∨
      s.woken t = true ∧ (s.threads t).state ≠ .blocked)
  left : ∀ t, s.calls t = .leaving → s.woken t = true ∨ (s.threads t).fatalSignalPending = true

theorem Sound.not_mem (h : Sound space s) (hc : ∀ addr, s.calls t ≠ .asleep addr) :
    ∀ i, ∀ w ∈ s.buckets i, w.thread ≠ t := by
  intro i w hw he
  subst he
  exact hc _ (h.chained i w hw).2.2.1

theorem Sound.setThread (h : Sound space s) (v : Waiting)
    (hfatal : (s.threads t).fatalSignalPending = true → (s.calls t).isIdle = false →
      v.fatalSignalPending = true)
    (hsleep : (s.calls t).isIdle = false → v.interruptibleWait = (s.threads t).interruptibleWait ∧
      (v.state = .terminated → (s.threads t).state = .terminated) ∧
      (v.state = .blocked → (s.threads t).state = .blocked) ∧
      (v.state ≠ .blocked → (s.threads t).state ≠ .blocked ∨ v.fatalSignalPending = true)) :
    Sound space (s.setThread t v) := by
  refine ⟨h.chained,h.once,h.locked,h.holds,fun u a hu => ?_,fun u hu => ?_⟩
  · have hold := h.sleeping u a hu
    by_cases hut : u = t
    · subst hut
      have hidle : (s.calls u).isIdle = false := by rw [show s.calls u = _ from hu]; rfl
      obtain ⟨h1,h2,h3,h4⟩ := hsleep hidle
      simp only [setThread,update_self]
      refine ⟨h1.trans hold.1,fun hv => hold.2.1 (h2 hv),?_⟩
      rcases hold.2.2 with ⟨hm,hb⟩ | ⟨hw,hb⟩
      · refine .inl ⟨hm,fun hv => ?_⟩
        rcases h4 hv with h5 | h5
        · exact hfatal (hb h5) hidle
        · exact h5
      · exact .inr ⟨hw,fun hv => hb (h3 hv)⟩
    · simpa [hut] using hold
  have hold := h.left u hu
  by_cases hut : u = t
  · subst hut
    have hidle : (s.calls u).isIdle = false := by rw [show s.calls u = _ from hu]; rfl
    simp only [setThread,update_self]
    exact hold.imp id fun hf => hfatal hf hidle
  · simpa [hut] using hold

theorem Sound.setCall (h : Sound space s) {c : FutexCall} (hc : (s.calls t).isIdle = true ∨
      s.calls t = .leaving) (hnew : c.isIdle = true) : Sound space (s.setCall t c) := by
  have hself : ∀ addr, s.calls t ≠ .asleep addr ∧ s.calls t ≠ .enrolling addr := by
    intro addr
    rcases hc with hc | hc
    · refine ⟨fun he => ?_,fun he => ?_⟩ <;> rw [he] at hc <;> cases hc
    rw [hc]
    exact ⟨by simp,by simp⟩
  have hne : ∀ {u c'}, c'.isIdle = false → (s.setCall t c).calls u = c' → u ≠ t ∧ s.calls u = c' := by
    intro u c' hidle hu
    by_cases hut : u = t
    · subst hut
      simp only [setCall,update_self] at hu
      rw [hu,hidle] at hnew
      cases hnew
    · simp only [Futexes.setCall,update_of_ne hut] at hu
      exact ⟨hut,hu⟩
  refine ⟨fun i w hw => ?_,h.once,fun i u hu => ?_,fun u a hu => ?_,fun u a hu => ?_,fun u hu => ?_⟩
  · have hold := h.chained i w hw
    have hwt : w.thread ≠ t := h.not_mem (fun addr => (hself addr).1) i w hw
    simpa [hwt] using hold
  · obtain ⟨a,ha,hi⟩ := h.locked i u hu
    have hut : u ≠ t := fun he => (hself a).2 (he ▸ ha)
    exact ⟨a,by simpa [hut] using ha,hi⟩
  · exact h.holds u a (hne rfl hu).2
  · exact h.sleeping u a (hne rfl hu).2
  · exact h.left u (hne rfl hu).2

theorem free_spec (h : s.free t = true) : (s.calls t).isIdle = true ∧ (s.threads t).state = .running := by
  simpa [free] using h

theorem ne_of_isIdle (h : (s.calls t).isIdle = true) (addr : UInt64) :
    s.calls t ≠ .asleep addr ∧ s.calls t ≠ .enrolling addr := by
  refine ⟨fun he => ?_,fun he => ?_⟩ <;> rw [he] at h <;> cases h

theorem Sound.futexWait (h : Sound space s) (hidle : (s.calls t).isIdle = true)
    (hlock : s.locks (futexHash (space t) addr) = none) (val : BitVec 32) :
    Sound space (s.futexWait space t addr val) := by
  unfold Futexes.futexWait
  split
  · exact h.setCall (.inl hidle) rfl
  split
  · exact h.setCall (.inl hidle) rfl
  have hcall : ∀ u, u ≠ t →
      ((s.setLock (futexHash (space t) addr) (some t)).setCall t (.enrolling addr)).calls u =
        s.calls u := fun u hu => by simp [hu]
  have hself : ((s.setLock (futexHash (space t) addr) (some t)).setCall t (.enrolling addr)).calls t =
      .enrolling addr := by simp
  refine ⟨fun i w hw => ?_,h.once,fun i u hu => ?_,fun u a hu => ?_,fun u a hu => ?_,fun u hu => ?_⟩
  · have hwt : w.thread ≠ t := h.not_mem (fun a => (ne_of_isIdle hidle a).1) i w hw
    rw [hcall _ hwt]
    exact h.chained i w hw
  · by_cases hi : i = futexHash (space t) addr
    · subst hi
      obtain rfl : t = u := by simpa using hu
      exact ⟨addr,hself,rfl⟩
    obtain ⟨a,ha,hia⟩ := h.locked i u (by simpa [hi] using hu)
    have hut : u ≠ t := fun he => (ne_of_isIdle hidle a).2 (he ▸ ha)
    exact ⟨a,by rw [hcall u hut]; exact ha,hia⟩
  · by_cases hut : u = t
    · subst hut
      rw [hself] at hu
      obtain rfl := FutexCall.enrolling.inj hu
      simp
    rw [hcall u hut] at hu
    have hheld := h.holds u a hu
    have hne : futexHash (space u) a ≠ futexHash (space t) addr := fun he => by
      rw [he,hlock] at hheld
      cases hheld
    simpa [hne] using hheld
  · by_cases hut : u = t
    · subst hut
      rw [hself] at hu
      cases hu
    · rw [hcall u hut] at hu
      exact h.sleeping u a hu
  by_cases hut : u = t
  · subst hut
    rw [hself] at hu
    cases hu
  · rw [hcall u hut] at hu
    exact h.left u hu

theorem Sound.enroll (h : Sound space s) (hc : s.calls t = .enrolling addr) :
    Sound space (s.enroll space t addr) := by
  have hheld := h.holds t addr hc
  have hnot := h.not_mem (t := t) fun a he => by rw [hc] at he; cases he
  -- the other locks have other holders
  have hother : ∀ i u, update s.locks (futexHash (space t) addr) none i = some u →
      u ≠ t ∧ ∃ a, s.calls u = .enrolling a ∧ i = futexHash (space u) a := by
    intro i u hu
    by_cases hi : i = futexHash (space t) addr
    · subst hi
      simp at hu
    rw [update_of_ne hi] at hu
    obtain ⟨a,ha,hia⟩ := h.locked i u hu
    refine ⟨fun he => ?_,a,ha,hia⟩
    subst he
    rw [hc] at ha
    obtain rfl := enrolling.inj ha
    exact hi hia
  have hkeep : ∀ u a, u ≠ t → s.calls u = .enrolling a →
      update s.locks (futexHash (space t) addr) none (futexHash (space u) a) = some u := by
    intro u a hut hu
    have hown := h.holds u a hu
    have hne : futexHash (space u) a ≠ futexHash (space t) addr := fun he => by
      rw [he,hheld] at hown
      exact hut (Option.some.inj hown).symm
    rw [update_of_ne hne]
    exact hown
  unfold Futexes.enroll
  cases hb : (s.threads t).beginInterruptibleWait with
  | none =>
    have hcall : ∀ u, u ≠ t → ((s.setLock (futexHash (space t) addr) none).setCall t
        (.idle (-4))).calls u = s.calls u := fun u hu => by simp [hu]
    have hne : ∀ {u c'}, isIdle c' = false → ((s.setLock (futexHash (space t) addr) none).setCall
        t (.idle (-4))).calls u = c' → u ≠ t ∧ s.calls u = c' := by
      intro u c' hidle hu
      by_cases hut : u = t
      · subst hut
        simp only [Futexes.setCall,update_self] at hu
        rw [← hu] at hidle
        cases hidle
      · exact ⟨hut,by rw [hcall u hut] at hu; exact hu⟩
    refine ⟨fun i w hw => ?_,h.once,fun i u hu => ?_,fun u a hu => ?_,fun u a hu => ?_,fun u hu => ?_⟩
    · rw [hcall _ (hnot i w hw)]
      exact h.chained i w hw
    · obtain ⟨hut,a,ha,hia⟩ := hother i u hu
      exact ⟨a,by rw [hcall u hut]; exact ha,hia⟩
    · obtain ⟨hut,hu⟩ := hne rfl hu
      exact hkeep u a hut hu
    · exact h.sleeping u a (hne rfl hu).2
    · exact h.left u (hne rfl hu).2
  | some v =>
    obtain ⟨-,rfl⟩ := Waiting.beginInterruptibleWait_eq hb
    refine ⟨fun i w hw => ?_,fun i => ?_,fun i u hu => ?_,fun u a hu => ?_,fun u a hu => ?_,fun u hu => ?_⟩
    · simp only [Futexes.setCall,setLock,setBucket,Futexes.setThread] at hw ⊢
      have hold : w ∈ s.buckets i → i = futexHash w.addrSpace w.addr ∧ w.addrSpace = space w.thread ∧
          update s.calls t (.asleep addr) w.thread = .asleep w.addr ∧
          update s.woken t false w.thread = false := fun hw => by
        rw [update_of_ne (hnot i w hw),update_of_ne (hnot i w hw)]
        exact h.chained i w hw
      by_cases hi : i = futexHash (space t) addr
      · subst hi
        rw [update_self] at hw
        rcases mem_cons.mp hw with rfl | hw
        · simp
        · exact hold hw
      · rw [update_of_ne hi] at hw
        exact hold hw
    · simp only [Futexes.setCall,setLock,setBucket,Futexes.setThread]
      by_cases hi : i = futexHash (space t) addr
      · subst hi
        rw [update_self,map_cons,nodup_cons]
        refine ⟨fun hm => ?_,h.once _⟩
        obtain ⟨w,hw,hwt⟩ := mem_map.mp hm
        exact hnot _ w hw hwt
      · rw [update_of_ne hi]
        exact h.once i
    · obtain ⟨hut,a,ha,hia⟩ := hother i u hu
      exact ⟨a,by simpa [hut] using ha,hia⟩
    · have hut : u ≠ t := fun he => by
        subst he
        simp at hu
      exact hkeep u a hut (by simpa [hut] using hu)
    · by_cases hut : u = t
      · subst hut
        obtain rfl : addr = a := by simpa using hu
        simp
      have hu' : s.calls u = .asleep a := by
        simpa [hut] using hu
      obtain ⟨h1,h2,h3⟩ := h.sleeping u a hu'
      simp only [Futexes.setCall,setLock,setBucket,Futexes.setThread,update_of_ne hut]
      refine ⟨h1,h2,h3.imp (fun hm => ⟨?_,hm.2⟩) id⟩
      by_cases hi : futexHash (space u) a = futexHash (space t) addr
      · rw [hi,update_self]
        exact mem_cons_of_mem _ (hi ▸ hm.1)
      · rw [update_of_ne hi]
        exact hm.1
    have hut : u ≠ t := fun he => by
      subst he
      simp at hu
    have hu' : s.calls u = .leaving := by
      simpa [hut] using hu
    simpa [hut] using h.left u hu'

theorem Sound.resume (h : Sound space s) (hc : s.calls t = .asleep addr)
    (hrun : (s.threads t).state = .running) : Sound space (s.resume space t addr) := by
  have hun := unlink_eq (h.once (futexHash (space t) addr)) t
  unfold Futexes.resume
  dsimp only
  rw [hun]
  -- what is left in the buckets belongs to others
  have hrest : ∀ i, ∀ w ∈ update s.buckets (futexHash (space t) addr)
      ((s.buckets (futexHash (space t) addr)).filter fun w => !decide (w.thread = t)) i,
      w ∈ s.buckets i ∧ w.thread ≠ t := by
    intro i w hw
    by_cases hi : i = futexHash (space t) addr
    · subst hi
      rw [update_self,mem_filter] at hw
      exact ⟨hw.1,by simpa using hw.2⟩
    rw [update_of_ne hi] at hw
    refine ⟨hw,fun he => hi ?_⟩
    obtain ⟨h1,h2,h3,-⟩ := h.chained i w hw
    rw [he,hc] at h3
    rw [h1,h2,he,asleep.inj h3]
  have hne : ∀ {u c'}, c' ≠ .leaving → update s.calls t .leaving u = c' → u ≠ t ∧ s.calls u = c' := by
    intro u c' hl hu
    by_cases hut : u = t
    · subst hut
      rw [update_self] at hu
      exact absurd hu.symm hl
    · exact ⟨hut,by rwa [update_of_ne hut] at hu⟩
  refine ⟨fun i w hw => ?_,fun i => ?_,fun i u hu => ?_,fun u a hu => ?_,fun u a hu => ?_,fun u hu => ?_⟩
  · obtain ⟨hw,hwt⟩ := hrest i w hw
    simpa [hwt] using h.chained i w hw
  · simp only [Futexes.setCall,setBucket,Futexes.setThread]
    by_cases hi : i = futexHash (space t) addr
    · subst hi
      rw [update_self]
      exact (filter_sublist.map _).nodup (h.once _)
    · rw [update_of_ne hi]
      exact h.once i
  · obtain ⟨a,ha,hia⟩ := h.locked i u hu
    have hut : u ≠ t := fun he => by rw [he,hc] at ha; cases ha
    exact ⟨a,by simpa [hut] using ha,hia⟩
  · exact h.holds u a (hne (by simp) hu).2
  · obtain ⟨hut,hu⟩ := hne (by simp) hu
    obtain ⟨h1,h2,h3⟩ := h.sleeping u a hu
    simp only [Futexes.setCall,setBucket,Futexes.setThread,update_of_ne hut]
    refine ⟨h1,h2,h3.imp (fun hm => ⟨?_,hm.2⟩) id⟩
    by_cases hi : futexHash (space u) a = futexHash (space t) addr
    · rw [hi,update_self,mem_filter]
      exact ⟨hi ▸ hm.1,by simpa using hut⟩
    · rw [update_of_ne hi]
      exact hm.1
  by_cases hut : u = t
  · subst hut
    simp only [Futexes.setCall,setBucket,Futexes.setThread,update_self]
    rcases (h.sleeping u addr hc).2.2 with ⟨-,hb⟩ | ⟨hw,-⟩
    · exact .inr (hb (by rw [hrun]; simp))
    · exact .inl hw
  have hu' : s.calls u = .leaving := by
    simpa [hut] using hu
  simpa [hut] using h.left u hu'

theorem mem_wakeLoop (addrSpace addr : UInt64) (count : Nat) (hw : w ∈ ws) :
    w ∈ (wakeLoop addrSpace addr count 0 ws).1 ∨ w ∈ (wakeLoop addrSpace addr count 0 ws).2 := by
  obtain ⟨h1,h2,h3,-⟩ := wakeLoop_spec addrSpace addr count 0 ws
  by_cases hk : w.waitsFor addrSpace addr = true
  · have hmem : w ∈ ws.filter (·.waitsFor addrSpace addr) := mem_filter.mpr ⟨hw,hk⟩
    rw [← take_append_drop (count - 0) (ws.filter (·.waitsFor addrSpace addr)),← h1,← h2] at hmem
    rcases mem_append.mp hmem with hm | hm
    · exact .inr hm
    · exact .inl (mem_filter.mp hm).1
  have hmem : w ∈ ws.filter fun w => !w.waitsFor addrSpace addr := mem_filter.mpr ⟨hw,by simpa using hk⟩
  rw [← h3] at hmem
  exact .inl (mem_filter.mp hmem).1

theorem mem_of_removed (addrSpace addr : UInt64) (count : Nat)
    (hw : w ∈ (wakeLoop addrSpace addr count 0 ws).2) : w ∈ ws ∧ w.waitsFor addrSpace addr = true := by
  rw [(wakeLoop_spec addrSpace addr count 0 ws).1] at hw
  exact mem_filter.mp (mem_of_mem_take hw)

theorem not_mem_removed (h : (ws.map (·.thread)).Nodup) (addrSpace addr : UInt64) (count : Nat)
    (hw : w ∈ (wakeLoop addrSpace addr count 0 ws).1) :
    w.thread ∉ (wakeLoop addrSpace addr count 0 ws).2.map (·.thread) := by
  intro hm
  obtain ⟨v,hv,hvt⟩ := mem_map.mp hm
  obtain ⟨h1,h2,-,h4⟩ := wakeLoop_spec addrSpace addr count 0 ws
  obtain ⟨hvs,hvk⟩ := mem_of_removed addrSpace addr count hv
  obtain rfl : v = w := inj_on_of_nodup_map h hvs (h4.subset hw) hvt
  have hleft : v ∈ (ws.filter (·.waitsFor addrSpace addr)).drop (count - 0) := by
    rw [← h2]
    exact mem_filter.mpr ⟨hw,hvk⟩
  rw [h1] at hv
  exact disjoint_take_drop (h.of_map _ |>.filter _) (le_rfl) hv hleft

section
variable (h : Sound space s)
include h

theorem Sound.futexWake_eq (addr : UInt64) (count : BitVec 32) : s.futexWake space t addr count =
      let r := wakeLoop (space t) addr count.toNat 0 (s.buckets (futexHash (space t) addr))
      { s with
        threads := fun u => if u ∈ r.2.map (·.thread) then (s.threads u).unblock else s.threads u
        woken := fun u => if u ∈ r.2.map (·.thread) then true else s.woken u
        buckets := update s.buckets (futexHash (space t) addr) r.1
        calls := update s.calls t (.idle r.2.length) } := by
  have hnd : ((wakeLoop (space t) addr count.toNat 0 (s.buckets (futexHash (space t) addr))).2.map
      (·.thread)).Nodup := by
    rw [(wakeLoop_spec (space t) addr count.toNat 0 _).1]
    exact ((take_sublist _ _).trans filter_sublist |>.map _).nodup (h.once _)
  unfold futexWake
  dsimp only
  rw [foldl_unblock hnd]
  rfl

theorem Sound.futexWake (hidle : (s.calls t).isIdle = true) (addr : UInt64) (count : BitVec 32) :
    Sound space (s.futexWake space t addr count) := by
  rw [h.futexWake_eq]
  obtain ⟨r,hr⟩ : ∃ r, r = wakeLoop (space t) addr count.toNat 0 (s.buckets (futexHash (space t) addr)) :=
    ⟨_,rfl⟩
  have hmem : ∀ w ∈ s.buckets (futexHash (space t) addr), w ∈ r.1 ∨ w ∈ r.2 := fun w hw => by
    rw [hr]
    exact mem_wakeLoop (space t) addr count.toNat hw
  have hrem : ∀ w ∈ r.2, w ∈ s.buckets (futexHash (space t) addr) := fun w hw => by
    rw [hr] at hw
    exact (mem_of_removed (space t) addr count.toNat hw).1
  have hdis : ∀ w ∈ r.1, w.thread ∉ r.2.map (·.thread) := fun w hw => by
    rw [hr] at hw ⊢
    exact not_mem_removed (h.once _) (space t) addr count.toNat hw
  have hrest : r.1.Sublist (s.buckets (futexHash (space t) addr)) := by
    rw [hr]
    exact (wakeLoop_spec (space t) addr count.toNat 0 _).2.2.2
  rw [← hr]
  have hsub : ∀ i, ∀ w ∈ update s.buckets (futexHash (space t) addr) r.1 i, w ∈ s.buckets i := by
    intro i w hw
    by_cases hi : i = futexHash (space t) addr
    · subst hi
      rw [update_self] at hw
      exact hrest.subset hw
    · rwa [update_of_ne hi] at hw
  -- whoever is taken out slept in this bucket
  have hslept : ∀ u, u ∈ r.2.map (·.thread) → ∃ a, s.calls u = .asleep a ∧ s.woken u = false ∧
      futexHash (space u) a = futexHash (space t) addr := by
    intro u hu
    obtain ⟨v,hv,rfl⟩ := mem_map.mp hu
    obtain ⟨h1,h2,h3,h4⟩ := h.chained _ v (hrem v hv)
    exact ⟨v.addr,h3,h4,by rw [h1,h2]⟩
  have hne : ∀ {u c'}, isIdle c' = false →
      update s.calls t (.idle r.2.length) u = c' → u ≠ t ∧ s.calls u = c' := by
    intro u c' hbusy hu
    by_cases hut : u = t
    · subst hut
      rw [update_self] at hu
      rw [← hu] at hbusy
      cases hbusy
    · exact ⟨hut,by rwa [update_of_ne hut] at hu⟩
  refine ⟨fun i w hw => ?_,fun i => ?_,fun i u hu => ?_,fun u a hu => ?_,fun u a hu => ?_,fun u hu => ?_⟩
  · have hws := hsub i w hw
    have hwt : w.thread ≠ t := h.not_mem (fun a => (ne_of_isIdle hidle a).1) i w hws
    obtain ⟨h1,h2,h3,h4⟩ := h.chained i w hws
    refine ⟨h1,h2,by simpa [hwt] using h3,?_⟩
    dsimp only
    rw [if_neg]
    · exact h4
    intro hm
    obtain ⟨a,ha,-,hi⟩ := hslept _ hm
    rw [h3] at ha
    obtain rfl := asleep.inj ha
    obtain rfl : i = futexHash (space t) addr := by rw [h1,h2,hi]
    dsimp only at hw
    rw [update_self] at hw
    exact hdis w hw hm
  · dsimp only
    by_cases hi : i = futexHash (space t) addr
    · subst hi
      rw [update_self]
      exact (hrest.map _).nodup (h.once _)
    · rw [update_of_ne hi]
      exact h.once i
  · obtain ⟨a,ha,hia⟩ := h.locked i u hu
    have hut : u ≠ t := fun he => (ne_of_isIdle hidle a).2 (he ▸ ha)
    exact ⟨a,by simpa [hut] using ha,hia⟩
  · exact h.holds u a (hne rfl hu).2
  · obtain ⟨-,hu⟩ := hne rfl hu
    obtain ⟨h1,h2,h3⟩ := h.sleeping u a hu
    dsimp only
    by_cases hm : u ∈ r.2.map (·.thread)
    · obtain ⟨h4,h5⟩ := Waiting.unblock_state h2
      rw [if_pos hm,if_pos hm]
      exact ⟨by simpa using h1,h5,.inr ⟨rfl,h4⟩⟩
    rw [if_neg hm,if_neg hm]
    refine ⟨h1,h2,h3.imp (fun hb => ⟨?_,hb.2⟩) id⟩
    by_cases hi : futexHash (space u) a = futexHash (space t) addr
    · rw [hi,update_self]
      refine (hmem _ (hi ▸ hb.1)).resolve_right fun hr => hm ?_
      exact mem_map.mpr ⟨_,hr,rfl⟩
    · rw [update_of_ne hi]
      exact hb.1
  obtain ⟨-,hu⟩ := hne rfl hu
  have hm : u ∉ r.2.map (·.thread) := fun hm => by
    obtain ⟨a,ha,-⟩ := hslept u hm
    rw [hu] at ha
    cases ha
  dsimp only
  rw [if_neg hm,if_neg hm]
  exact h.left u hu

theorem Sound.next (t : Fin n) : Sound space (s.next space t) := by
  unfold Futexes.next
  split
  · exact h
  · rename_i addr hc
    exact h.enroll hc
  · rename_i addr hc
    split
    · rename_i hgo
      exact h.resume hc (by simpa using (Bool.and_eq_true_iff.mp hgo).1)
    · exact h
  · rename_i hc
    exact h.setCall (.inr hc) rfl

theorem Sound.step (e : Event n) : Sound space (s.step space e) := by
  have hbusy : ∀ {t}, s.free t = true → ∀ {P : Prop}, (s.calls t).isIdle = false → P := by
    intro t hf P hi
    rw [(free_spec hf).1] at hi
    cases hi
  unfold Futexes.step
  cases e with
  | wait t addr val =>
    dsimp only
    split
    · rename_i hgo
      obtain ⟨hf,hl⟩ := Bool.and_eq_true_iff.mp hgo
      exact h.futexWait (free_spec hf).1 (by simpa using hl) val
    · exact h
  | wake t addr count =>
    dsimp only
    split
    · rename_i hgo
      exact h.futexWake (free_spec (Bool.and_eq_true_iff.mp hgo).1).1 addr count
    · exact h
  | next t => exact h.next t
  | write addrSpace addr word => exact ⟨h.chained,h.once,h.locked,h.holds,h.sleeping,h.left⟩
  | post t sig =>
    obtain ⟨h1,h2,h3,h4,h5⟩ := Waiting.postSignal_spec (s.threads t) sig
    exact h.setThread _ (fun hf _ => h2 hf) (fun _ => ⟨h1,h3,h4,h5⟩)
  | dispatch t | preempt t =>
    dsimp only
    split
    · rename_i hr
      refine h.setThread _ (fun hf _ => hf) (fun _ => ⟨rfl,?_,?_,fun _ => .inl ?_⟩)
      · exact nofun
      · exact nofun
      rw [hr]
      exact nofun
    · exact h
  | mask t _ | terminate t =>
    dsimp only
    split
    · rename_i hf
      exact h.setThread _ (fun _ hi => hbusy hf hi) (fun hi => hbusy hf hi)
    · exact h

end

variable {words : UInt64 → UInt64 → Option (BitVec 32)} {sigHandlers : Fin n → Nat → UInt64}

theorem sound_init (space : Fin n → UInt64) (words : UInt64 → UInt64 → Option (BitVec 32))
    (sigHandlers : Fin n → Nat → UInt64) : Sound space (init words sigHandlers) where
  chained := fun i w hw => by cases hw
  once := fun i => nodup_nil
  locked := fun i t ht => by cases ht
  holds := fun t addr ht => by cases ht
  sleeping := fun t addr ht => by cases ht
  left := fun t ht => by cases ht

theorem run_sound (es : List (Event n)) : Sound space ((machine space words sigHandlers).run es) :=
  (machine space words sigHandlers).run_invariant (sound_init space words sigHandlers)
    (fun _ e h => h.step e) es

open Lib

end Rucux.Sync.Futexes
