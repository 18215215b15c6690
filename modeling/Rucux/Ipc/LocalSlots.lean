import Mathlib.Data.List.Count
import Rucux.Ipc.LocalSocket

/-!
Which slots are in use, and who names them: descriptors, peers, and listeners with a connection that
nobody has accepted yet.
-/

namespace Rucux.Ipc
open List Option LocalSocket Pool

structure Wiring where
  inUse : Bool
  refcount : Nat
  listening : Bool
  peer : Option Slot
  pending : Option Slot

/-- `names` counts descriptors; the slots in `x` are in the hands of a call, which has yet to give them
away or to release them. -/
structure Wired (x : Slot → Prop) (w : Slot → Wiring) (names : Slot → Nat) : Prop where
  orphan : ∀ i, x i → (w i).inUse = true ∧ names i = 0
  alive : ∀ i, 0 < names i → (w i).inUse = true ∧ (w i).refcount = names i
  held : ∀ i, (w i).inUse = true → names i = 0 → ¬x i →
    (w i).refcount = 1 ∧ ∃ l, (w l).inUse = true ∧ (w l).pending = some i
  peer : ∀ i j, (w i).inUse = true → (w i).peer = some j → (w j).inUse = true ∧ (w j).peer = some i
  pending : ∀ l i, (w l).inUse = true → (w l).pending = some i →
    (w i).inUse = true ∧ names i = 0 ∧ ¬x i ∧ (w l).listening = true
  unique : ∀ l k i, (w l).inUse = true → (w k).inUse = true → (w l).pending = some i → (w k).pending = some i → l = k
  listening : ∀ l, (w l).inUse = true → (w l).listening = true → 0 < names l ∨ x l
  distinct : ∀ i, (w i).inUse = true → (w i).peer ≠ some i

namespace Wired
variable {x : Slot → Prop} {w w' : Slot → Wiring} {n n' : Slot → Nat} {i j l c v : Slot} (h : Wired x w n)
include h

theorem alloc (hfree : (w i).inUse = false)
    (hw : ∀ j, w' j = if j = i then ⟨true,1,false,none,none⟩ else w j) : Wired (fun j => x j ∨ j = i) w' n := by
  obtain rfl := funext hw
  cases h
  constructor <;> grind

theorem adopt (hi : x i) (hr : (w i).refcount = 1)
    (hn : ∀ j, n' j = if j = i then 1 else n j) : Wired (fun j => x j ∧ j ≠ i) w n' := by
  obtain rfl := funext hn
  cases h
  constructor <;> grind

theorem link (hi : x i) (hj : x j) (hij : i ≠ j) (hpi : (w i).peer = none) (hpj : (w j).peer = none)
    (hw : ∀ k, w' k = { w k with peer := if k = j then some i else if k = i then some j else (w k).peer }) :
    Wired x w' n := by
  obtain rfl := funext hw
  cases h
  constructor <;> grind

theorem connect (hv : x v) (hwv : w v = ⟨true,1,false,none,none⟩) (hc : 0 < n c)
    (hpc : (w c).peer = none) (hl : (w l).inUse = true) (hll : (w l).listening = true) (hlp : (w l).pending = none)
    (hw : ∀ k, w' k = { w k with
      peer := if k = c then some v else if k = v then some c else (w k).peer
      pending := if k = l then some v else (w k).pending }) : Wired (fun j => x j ∧ j ≠ v) w' n := by
  obtain rfl := funext hw
  cases h
  constructor <;> grind

theorem unpend (hl : (w l).inUse = true) (hp : (w l).pending = some i)
    (hw : ∀ k, w' k = { w k with pending := if k = l then none else (w k).pending }) :
    Wired (fun j => x j ∨ j = i) w' n := by
  obtain rfl := funext hw
  cases h
  constructor <;> grind

theorem opened (hi : 0 < n i)
    (hw : ∀ j, w' j = { w j with refcount := if j = i then (w j).refcount + 1 else (w j).refcount })
    (hn : ∀ j, n' j = if j = i then n j + 1 else n j) : Wired x w' n' := by
  obtain rfl := funext hw
  obtain rfl := funext hn
  cases h
  constructor <;> grind

theorem closed (hi : 0 < n i)
    (hw : ∀ j, w' j = { w j with refcount := if j = i then (w j).refcount - 1 else (w j).refcount })
    (hn : ∀ j, n' j = if j = i then n j - 1 else n j) : Wired (fun j => x j ∨ j = i ∧ n i = 1) w' n' := by
  obtain rfl := funext hw
  obtain rfl := funext hn
  cases h
  constructor <;> grind

theorem listens (hi : 0 < n i)
    (hw : ∀ j, w' j = { w j with listening := (w j).listening || j = i }) : Wired x w' n := by
  obtain rfl := funext hw
  cases h
  constructor <;> grind

theorem released (hi : x i) (hw : ∀ j, w' j = if j = i then ⟨false,0,false,none,none⟩
      else if (w i).peer = some j ∧ (w j).inUse = true ∧ (w j).peer = some i then { w j with peer := none } else w j) :
    Wired (fun j => (x j ∨ (w i).pending = some j) ∧ j ≠ i) w' n := by
  obtain rfl := funext hw
  cases h
  constructor <;> grind

theorem waits (hi : x i) (hp : (w i).pending = some j) :
    j ≠ i ∧ ¬x j ∧ (w j).inUse = true ∧ (w j).refcount = 1 ∧ (w j).pending = none := by
  obtain ⟨hj,hnj,hxj,_⟩ := h.pending i j (h.orphan i hi).1 hp
  refine ⟨fun e => hxj (e ▸ hi),hxj,hj,(h.held j hj hnj hxj).1,?_⟩
  by_contra hne
  obtain ⟨k,hk⟩ := ne_none_iff_exists'.mp hne
  cases h.listening j hj (h.pending j k hj hk).2.2.2 with
  | inl hpos => omega
  | inr hx => exact hxj hx

end Wired

def LocalSocket.wiring (x : LocalSocket) : Wiring := ⟨x.inUse,x.refcount,x.listening,x.peerIndex,x.pendingIndex⟩

/-- A socket in use stays, but for the count and what waits at it, or stays without a peer that has gone. -/
def Kept (x : LocalSocket) (q : Pool) (k : Slot) : Prop :=
  x.inUse = true ∧ ∃ r c, q k = { x with refcount := r, pendingIndex := c } ∨
    ∃ j, x.peerIndex = some j ∧ (q j).inUse = false ∧
      q k = { x with refcount := r, pendingIndex := c, peerIndex := none, peerClosed := true }

theorem Kept.of_eq {x : LocalSocket} {q : Pool} {k : Slot} (hx : x.inUse = true) (h : q k = x) : Kept x q k :=
  ⟨hx,_,_,Or.inl h⟩

theorem Kept.refl {q : Pool} {k : Slot} (h : (q k).inUse = true) : Kept (q k) q k := .of_eq h rfl

def Shrinks (p q : Pool) : Prop := ∀ k, (q k).inUse = true → Kept (p k) q k

theorem Kept.shrinks {x : LocalSocket} {p q : Pool} {k : Slot} (h : Kept x p k) (hs : Shrinks p q)
    (hk : (q k).inUse = true) : Kept x q k := by
  have hfree : ∀ j, (p j).inUse = false → (q j).inUse = false := fun j hj =>
    Bool.eq_false_of_not_eq_true fun hq => Bool.false_ne_true (hj.symm.trans (hs j hq).1)
  obtain ⟨hx,r,c,he | ⟨j,hp,hj,he⟩⟩ := h <;> obtain ⟨_,r',c',he' | ⟨j',hp',hj',he'⟩⟩ := hs k hk <;> rw [he] at he'
  · exact ⟨hx,r',c',Or.inl he'⟩
  · rw [he] at hp'
    exact ⟨hx,r',c',Or.inr ⟨j',hp',hj',he'⟩⟩
  · exact ⟨hx,r',c',Or.inr ⟨j,hp,hfree j hj,he'⟩⟩
  · rw [he] at hp'
    cases hp'

def Fresh (x y : LocalSocket) : Prop :=
  x.inUse = false ∧ ∃ t r a q, y = { inUse := true, type := t, refcount := r, address := a, peerIndex := q } ∧
    (q ≠ none → t = sockStream)

namespace Pool
variable {p : Pool} {i j k : Slot}

theorem ne_of_inUse (hk : (p k).inUse = true) (hi : (p i).inUse = false) : k ≠ i :=
  fun e => Bool.false_ne_true (hi.symm.trans (e ▸ hk))

def wiring (p : Pool) : Slot → Wiring := fun i => (p i).wiring

theorem wiring_set (p : Pool) (i : Slot) (f : LocalSocket → LocalSocket) (j : Slot) :
    wiring (set p i f) j = if j = i then (f (p j)).wiring else wiring p j := by
  simp only [wiring,set]
  split <;> rfl

theorem detach_apply (p : Pool) (i : Slot) (peer : Option Slot) (j : Slot) : detach p i peer j =
    if peer = some j ∧ (p j).inUse = true ∧ (p j).peerIndex = some i then
      { p j with peerIndex := none, peerClosed := true }
    else p j := by
  cases peer with
  | none => simp [detach]
  | some k =>
    by_cases hk : k = j
    · subst hk
      by_cases hc : (p k).inUse = true ∧ (p k).peerIndex = some i
      · simp [detach,hc,set]
      · rw [detach,if_neg hc,if_neg fun h => hc h.2]
    rw [if_neg (by simp [hk]),detach]
    split
    · exact if_neg (Ne.symm hk)
    · rfl

def without (p : Pool) (i : Slot) : Pool := fun j =>
  if j = i then {}
  else if (p i).peerIndex = some j ∧ (p j).inUse = true ∧ (p j).peerIndex = some i then
    { p j with peerIndex := none, peerClosed := true }
  else p j

theorem wiring_without (p : Pool) (i j : Slot) : wiring (p.without i) j =
    if j = i then ⟨false,0,false,none,none⟩
    else if (wiring p i).peer = some j ∧ (wiring p j).inUse = true ∧ (wiring p j).peer = some i then
      { wiring p j with peer := none }
    else wiring p j := by
  by_cases hj : j = i
  · rw [wiring,without,if_pos hj,if_pos hj]
    rfl
  · rw [wiring,without,if_neg hj,if_neg hj]
    exact apply_ite LocalSocket.wiring _ _ _

theorem without_shrinks (p : Pool) (i : Slot) : Shrinks p (p.without i) := by
  intro j h
  have hi : (p.without i i).inUse = false := congrArg inUse (if_pos rfl)
  by_cases hj : j = i
  · exact absurd h (by simp [hj,hi])
  by_cases hc : (p i).peerIndex = some j ∧ (p j).inUse = true ∧ (p j).peerIndex = some i
  · exact ⟨hc.2.1,_,_,Or.inr ⟨i,hc.2.2,hi,by rw [without,if_neg hj,if_pos hc]⟩⟩
  have he : p.without i j = p j := by rw [without,if_neg hj,if_neg hc]
  exact .of_eq (he ▸ h) he

theorem releaseFrom_leaf (fuel : Nat) (hi : (p i).inUse = true) (hp : (p i).pendingIndex = none) :
    releaseFrom (fuel + 1) i p = p.without i := by
  funext j
  simp only [releaseFrom,hi,hp,Bool.not_true,Bool.false_eq_true,if_false,set,detach_apply,without]
  split <;> rfl

theorem releaseFrom_pending (fuel : Nat) (hi : (p i).inUse = true) (hp : (p i).pendingIndex = some k)
    (hk : k ≠ i) (hu : (p k).inUse = true) (hr : 0 < (p k).refcount) (hn : (p k).pendingIndex = none) :
    releaseFrom (fuel + 2) i p = (p.without i).without k := by
  generalize hq : detach (set p i fun x => { x with inUse := false, refcount := 0 }) i (p i).peerIndex = q
  have hw : ∀ j, j ≠ i → q j = p.without i j := by
    intro j hj
    rw [← hq,detach_apply,without,if_neg hj,set,if_neg hj]
  have hk' : (q k).inUse = true ∧ (q k).refcount = (p k).refcount ∧ (q k).pendingIndex = none := by
    rw [hw k hk,without,if_neg hk]
    split <;> exact ⟨hu,rfl,hn⟩
  funext j
  rw [releaseFrom]
  simp only [hi,hp,hq,Bool.not_true,Bool.false_eq_true,if_false]
  rw [if_pos ⟨hk'.1,hk'.2.1 ▸ hr⟩,
    releaseFrom_leaf fuel (by simpa [set] using hk'.1) (by simpa [set] using hk'.2.2)]
  by_cases hj : j = i
  · simp [set,without,hj,Ne.symm hk]
  by_cases hjk : j = k
  · simp [set,without,hjk,hk]
  rw [set,if_neg hj,without,without,if_neg hjk,if_neg hjk]
  simp only [set,if_neg hjk,if_true,hw j hj,hw k hk]

theorem allocSocketSlot_spec {p' : Pool} (h : p.allocSocketSlot = some (i,p')) :
    (p i).inUse = false ∧ p' = set p i fun _ => { inUse := true, refcount := 1 } := by
  obtain ⟨j,hj,he⟩ := map_eq_some_iff.mp h
  obtain ⟨rfl,rfl⟩ := Prod.mk.inj he
  exact ⟨by simpa using find?_some hj,rfl⟩

end Pool

namespace Local
variable {s : Local} {x y : Slot → Prop} {i j : Slot} {thread fd : Nat}

def names (s : Local) (i : Slot) : Nat := s.fds.countP (·.slot = i)

def Within (s : Local) (x : Slot → Prop) : Prop := Wired x s.pool.wiring s.names

abbrev Sound (s : Local) : Prop := s.Within fun _ => False

theorem Within.congr (h : s.Within x) (hx : ∀ i, x i ↔ y i) : s.Within y := by
  rwa [show y = x from funext fun i => propext (hx i).symm]

theorem Within.setSocket (h : s.Within x) (i : Slot) {f : LocalSocket → LocalSocket}
    (hf : ∀ y, (f y).wiring = y.wiring) : (s.setSocket i f).Within x := by
  have hw : (s.setSocket i f).pool.wiring = s.pool.wiring := by
    funext j
    simp only [Local.setSocket,setPool,wiring_set,hf]
    split <;> rfl
  rw [Within,hw]
  exact h

theorem setSocket_shrinks {f : LocalSocket → LocalSocket}
    (hf : ∀ y, ∃ r c, f y = { y with refcount := r, pendingIndex := c }) : Shrinks s.pool (s.setSocket i f).pool := by
  intro j hj
  rw [setSocket_pool] at hj
  by_cases hji : j = i
  · obtain ⟨r,c,he⟩ := hf (s.pool j)
    rw [if_pos hji,he] at hj
    exact ⟨hj,r,c,Or.inl (by rw [setSocket_pool,if_pos hji,he])⟩
  · rw [if_neg hji] at hj
    exact .of_eq hj (by rw [setSocket_pool,if_neg hji])

theorem Within.alloc {p : Pool} (h : s.Within x) (ha : s.pool.allocSocketSlot = some (i,p)) :
    (s.setPool p).Within fun j => x j ∨ j = i := by
  obtain ⟨hfree,rfl⟩ := allocSocketSlot_spec ha
  exact Wired.alloc h hfree fun j => wiring_set _ _ _ _

theorem Within.release (h : s.Within x) (hi : x i) : (s.release i).Within (fun j => x j ∧ j ≠ i) ∧
    Shrinks s.pool (s.release i).pool ∧ ((s.release i).pool i).inUse = false := by
  have hused : (s.pool i).inUse = true := (h.orphan i hi).1
  have hfirst : (s.setPool (s.pool.without i)).Within _ := Wired.released h hi (wiring_without s.pool i)
  cases hp : (s.pool i).pendingIndex with
  | none =>
    have he : s.release i = s.setPool (s.pool.without i) := congrArg s.setPool (releaseFrom_leaf 63 hused hp)
    rw [he]
    refine ⟨hfirst.congr fun j => ?_,without_shrinks _ i,congrArg inUse (if_pos rfl)⟩
    simp [Pool.wiring,LocalSocket.wiring,hp]
  | some k =>
    obtain ⟨hki,hxk,hk,hr,hleaf⟩ := Wired.waits h hi hp
    have he : s.release i = s.setPool ((s.pool.without i).without k) :=
      congrArg s.setPool (releaseFrom_pending 62 hused hp hki hk (Nat.lt_of_lt_of_eq Nat.one_pos hr.symm) hleaf)
    rw [he]
    have hsecond : (s.setPool ((s.pool.without i).without k)).Within _ :=
      Wired.released hfirst ⟨Or.inr hp,hki⟩ (wiring_without _ k)
    have hgone : (s.pool.without i i).inUse = false := congrArg inUse (if_pos rfl)
    refine ⟨hsecond.congr fun j => ?_,fun j hj => ?_,?_⟩
    · have hnone : ((s.setPool (s.pool.without i)).pool.wiring k).pending = none := by
        rw [setPool,wiring_without,if_neg hki]
        split <;> exact hleaf
      have hpend : (s.pool.wiring i).pending = some k := hp
      grind
    · have hkept := without_shrinks _ k j hj
      exact (without_shrinks _ i j hkept.1).shrinks (without_shrinks _ k) hj
    · by_contra hi'
      exact Bool.false_ne_true (hgone.symm.trans (without_shrinks _ k i (Bool.eq_true_of_not_eq_false hi')).1)

theorem Within.installNewSocketFd (h : s.Within x) (hi : x i) (hr : (s.pool i).refcount = 1) (thread : Nat)
    (fd : Option Nat) : (s.installNewSocketFd thread fd i).2.Within (fun j => x j ∧ j ≠ i) ∧
    (s.installNewSocketFd thread fd i = (-1,s.release i) ∨
      ∃ n : Nat, s.installNewSocketFd thread fd i = ((n : Int),{ s with fds := ⟨thread,n,i⟩ :: s.fds })) := by
  unfold Local.installNewSocketFd
  cases ha : s.allocFd thread fd i with
  | none => exact ⟨(h.release hi).1,Or.inl rfl⟩
  | some r =>
    obtain ⟨n,-,hn⟩ := bind_eq_some_iff.mp ha
    split at hn
    · cases hn
    obtain rfl := some.inj hn
    refine ⟨Wired.adopt h hi hr fun j => ?_,Or.inr ⟨n,rfl⟩⟩
    have hzero := (h.orphan i hi).2
    simp only [names] at hzero ⊢
    rw [countP_cons]
    grind

/-- How a call ends: with the table in order, and with new sockets only where it succeeds. -/
def Clean (s : Local) (r : Int × Local) : Prop :=
  r.2.Sound ∧ ∀ k, (r.2.pool k).inUse = true →
    Kept (s.pool k) r.2.pool k ∨ 0 ≤ r.1 ∧ Fresh (s.pool k) (r.2.pool k)

theorem Within.clean (h : s.Sound) (r : Int) : s.Clean (r,s) := ⟨h,fun _ hk => Or.inl (Kept.refl hk)⟩

theorem Clean.fails {r : Int × Local} (h : s.Clean r) (hneg : r.1 < 0) (k : Slot) (hk : (r.2.pool k).inUse = true) :
    (s.pool k).inUse = true := by
  cases h.2 k hk with
  | inl hk => exact hk.1
  | inr hk => exact absurd hneg (Int.not_lt.mpr hk.1)

theorem Within.install {t : Local} (h : t.Within fun k => k = i) (hr : (t.pool i).refcount = 1)
    (hin : ∀ k, (t.pool k).inUse = true → Kept (s.pool k) t.pool k ∨ k = i ∧ Fresh (s.pool k) (t.pool k)) (thread : Nat)
    (fd : Option Nat) : s.Clean (t.installNewSocketFd thread fd i) := by
  obtain ⟨hend,he | ⟨n,he⟩⟩ := h.installNewSocketFd rfl hr thread fd
  · rw [he] at hend ⊢
    refine ⟨hend.congr (by grind),fun k hk => Or.inl ?_⟩
    obtain ⟨_,hshrinks,hgone⟩ := h.release rfl
    cases hin k (hshrinks k hk).1 with
    | inl hkept => exact hkept.shrinks hshrinks hk
    | inr hnew => exact absurd hnew.1 (ne_of_inUse hk hgone)
  · rw [he] at hend ⊢
    exact ⟨hend.congr (by grind),fun k hk => (hin k hk).imp id fun hk => ⟨Int.natCast_nonneg n,hk.2⟩⟩

theorem Within.sysSocket (h : s.Sound) (thread type protocol : Nat) (fd : Option Nat) :
    s.Clean (s.sysSocket thread type protocol fd) := by
  unfold Local.sysSocket
  split
  · exact h.clean _
  cases ha : s.pool.allocSocketSlot with
  | none => exact h.clean _
  | some r =>
    obtain ⟨i,p⟩ := r
    obtain ⟨hfree,hp⟩ := allocSocketSlot_spec ha
    have hnew : (s.setPool (p.set i fun x => { x with type := type })).Within _ :=
      (h.alloc ha).setSocket i fun _ => rfl
    refine (hnew.congr fun k => by simp).install ?_ (fun k hk => ?_) thread fd
    · simp [setPool,hp,Pool.set]
    by_cases hki : k = i
    · subst hki
      exact Or.inr ⟨rfl,hfree,type,1,none,none,by simp [setPool,hp,Pool.set],fun h => absurd rfl h⟩
    · simp only [setPool,hp,Pool.set,if_neg hki] at hk ⊢
      exact Or.inl (.of_eq hk (by simp only [Pool.set,if_neg hki]))

theorem names_pos {d : Descriptor} (h : s.getFdNode thread fd = some d) : 0 < s.names d.slot :=
  countP_pos_iff.mpr ⟨d,mem_of_find?_eq_some h,by simp⟩

theorem Within.sysClose (h : s.Within x) (thread fd : Nat) : (s.sysClose thread fd).2.Within x ∧
    Shrinks s.pool (s.sysClose thread fd).2.pool ∧ ∀ d, s.getFdNode thread fd = some d → s.names d.slot = 1 →
      ((s.sysClose thread fd).2.pool d.slot).inUse = false := by
  unfold Local.sysClose
  cases hd : s.getFdNode thread fd with
  | none => exact ⟨h,fun j hj => Kept.refl hj,nofun⟩
  | some d =>
    have hpos := names_pos hd
    obtain ⟨hused,hcount⟩ : (s.pool d.slot).inUse = true ∧ (s.pool d.slot).refcount = _ := h.alive d.slot hpos
    have hx : ¬x d.slot := fun hx => by have := (h.orphan d.slot hx).2; omega
    let t : Local := { s with fds := s.fds.erase d }.setSocket d.slot fun x => { x with refcount := x.refcount - 1 }
    have hclosed : t.Within fun j => x j ∨ j = d.slot ∧ s.names d.slot = 1 := by
      refine Wired.closed h hpos (fun j => ?_) fun j => ?_
      · simp only [t,Local.setSocket,setPool,wiring_set]
        split <;> rfl
      simp only [names,t,Local.setSocket,setPool,countP_erase]
      have := mem_of_find?_eq_some hd
      grind
    have hr : (t.pool d.slot).refcount = s.names d.slot - 1 := by
      rw [← hcount]
      exact congrArg refcount (if_pos rfl)
    have hshrinks : Shrinks s.pool t.pool :=
      setSocket_shrinks (s := { s with fds := s.fds.erase d }) fun _ => ⟨_,_,rfl⟩
    simp only [localClose]
    rw [if_neg (by simp [hused,hcount]; omega)]
    split
    · have hone : s.names d.slot = 1 := by
        have : (t.pool d.slot).refcount = 0 := by assumption
        omega
      obtain ⟨hrel,hrelease,hgone⟩ := hclosed.release (Or.inr ⟨rfl,hone⟩)
      refine ⟨hrel.congr (by grind),fun j hj => (hshrinks j (hrelease j hj).1).shrinks hrelease hj,fun d' hd' _ => ?_⟩
      cases hd'
      exact hgone
    have hone : s.names d.slot ≠ 1 := by
      have : ¬(t.pool d.slot).refcount = 0 := by assumption
      omega
    refine ⟨hclosed.congr (by grind),hshrinks,fun d' hd' hone' => ?_⟩
    cases hd'
    exact absurd hone' hone

theorem Within.pair {t : Local} (h : t.Within fun k => k = i ∨ k = j) (hij : i ≠ j) (hi : Fresh (s.pool i) (t.pool i))
    (hj : Fresh (s.pool j) (t.pool j)) (hri : (t.pool i).refcount = 1) (hrj : (t.pool j).refcount = 1)
    (hin : ∀ k, k ≠ i → k ≠ j → t.pool k = s.pool k) (thread : Nat) (fd fd' : Option Nat) : s.Clean (
      let (first,s) := t.installNewSocketFd thread fd i
      if first < 0 then (-1,s.release j)
      else
        let (second,s) := s.installNewSocketFd thread fd' j
        if second < 0 then (-1,(s.sysClose thread first.toNat).2) else (0,s)) := by
  obtain ⟨hfirst,he | ⟨n,he⟩⟩ := h.installNewSocketFd (Or.inl rfl) hri thread fd
  · rw [he] at hfirst ⊢
    obtain ⟨hrel,hshrinks,hgone⟩ := hfirst.release ⟨Or.inr rfl,Ne.symm hij⟩
    obtain ⟨_,hshrinks',hgone'⟩ := h.release (Or.inl rfl)
    refine ⟨hrel.congr (by grind),fun k hk => Or.inl ?_⟩
    have hk' := hshrinks k hk
    rw [← hin k (ne_of_inUse hk'.1 hgone') (ne_of_inUse hk hgone)]
    exact (hshrinks' k hk'.1).shrinks hshrinks hk
  rw [he] at hfirst ⊢
  simp only [Int.not_lt.mpr (Int.natCast_nonneg n),if_false]
  obtain ⟨hsecond,he' | ⟨m,he'⟩⟩ := hfirst.installNewSocketFd ⟨Or.inr rfl,Ne.symm hij⟩ hrj thread fd'
  · rw [he'] at hsecond ⊢
    obtain ⟨hclose,hshrinks,hlast⟩ := hsecond.sysClose thread n
    obtain ⟨_,hshrinks',hgone'⟩ := hfirst.release ⟨Or.inr rfl,Ne.symm hij⟩
    refine ⟨hclose.congr (by grind),fun k hk => Or.inl ?_⟩
    have hk' := hshrinks k hk
    have hgone := hlast ⟨thread,n,i⟩ (by simp [getFdNode,Local.release,setPool]) (by
      have hzero := (h.orphan i (Or.inl rfl)).2
      simpa [names,Local.release,setPool] using hzero)
    rw [← hin k (ne_of_inUse hk hgone) (ne_of_inUse hk'.1 hgone')]
    exact (hshrinks' k hk'.1).shrinks hshrinks hk
  rw [he'] at hsecond ⊢
  simp only [Int.not_lt.mpr (Int.natCast_nonneg m),if_false]
  refine ⟨hsecond.congr (by grind),fun k hk => ?_⟩
  by_cases hki : k = i
  · exact Or.inr ⟨Int.le_refl 0,hki ▸ hi⟩
  by_cases hkj : k = j
  · exact Or.inr ⟨Int.le_refl 0,hkj ▸ hj⟩
  exact Or.inl (hin k hki hkj ▸ Kept.refl hk)

theorem Within.handleSocketpair (h : s.Sound) (thread type : Nat) (fd fd' : Option Nat) :
    s.Clean (s.handleSocketpair thread type fd fd') := by
  unfold Local.handleSocketpair
  split
  · exact h.clean _
  rename_i htype
  cases ha : s.pool.allocSocketSlot with
  | none => exact h.clean _
  | some r =>
    obtain ⟨i,p⟩ := r
    obtain ⟨hi,hp⟩ := allocSocketSlot_spec ha
    have hfirst := h.alloc ha
    simp only
    cases hb : p.allocSocketSlot with
    | none =>
      obtain ⟨hs,hshrinks,hgone⟩ := hfirst.release (Or.inr rfl)
      refine ⟨hs.congr (by simp),fun k hk => Or.inl ?_⟩
      have hki := ne_of_inUse hk hgone
      simpa [setPool,hp,Pool.set,hki] using hshrinks k hk
    | some r' =>
      obtain ⟨j,p'⟩ := r'
      obtain ⟨hj,hp'⟩ := allocSocketSlot_spec hb
      have hij : i ≠ j := by
        rintro rfl
        simp [hp,Pool.set] at hj
      have hboth := Within.alloc hfirst hb
      refine Within.pair ?_ hij ?_ ?_ ?_ ?_ ?_ thread fd fd'
      · refine Within.congr (Wired.link hboth (Or.inl (Or.inr rfl)) (Or.inr rfl) hij ?_ ?_ fun k => ?_) (by simp)
        · simp [setPool,hp',hp,Pool.wiring,Pool.set,LocalSocket.wiring,hij]
        · simp [setPool,hp',Pool.wiring,Pool.set,LocalSocket.wiring]
        simp only [setPool,Pool.wiring,Pool.set]
        grind [LocalSocket.wiring]
      · exact ⟨hi,type,1,none,some j,by simp [setPool,hp',hp,Pool.set,hij],fun _ => not_not.mp htype⟩
      · exact ⟨by simpa [hp,Pool.set,Ne.symm hij] using hj,type,1,none,some i,
          by simp [setPool,hp',Pool.set,Ne.symm hij],fun _ => not_not.mp htype⟩
      · simp [setPool,hp',hp,Pool.set,hij]
      · simp [setPool,hp',hp,Pool.set,Ne.symm hij]
      · intro k hki hkj
        simp [setPool,hp',hp,Pool.set,hki,hkj]

theorem socketFromFd_names (h : s.socketFromFd thread fd = some i) : 0 < s.names i := by
  obtain ⟨⟨d,hd,rfl⟩,_⟩ := socketFromFd_eq_some.mp h
  exact names_pos hd

theorem Within.sysListen (h : s.Sound) (thread fd : Nat) : (s.sysListen thread fd).2.Sound := by
  obtain he | ⟨i,hi,he⟩ := sysListen_cases s thread fd <;> rw [he]
  · exact h
  have hpos := socketFromFd_names hi
  refine Wired.listens h hpos fun j => ?_
  simp only [Local.setSocket,setPool,wiring_set]
  grind [LocalSocket.wiring,Pool.wiring]

theorem Within.sysAccept (h : s.Sound) (thread fd : Nat) (new : Option Nat) :
    s.Clean (s.sysAccept thread fd new) := by
  unfold Local.sysAccept
  cases hl : s.socketFromFd thread fd with
  | none => exact h.clean _
  | some l =>
    simp only
    split
    · exact h.clean _
    rename_i child hchild
    have hused : (s.pool l).inUse = true := (socketFromFd_eq_some.mp hl).2
    have hp : (s.pool l).pendingIndex = some child := by
      split at hchild
      · exact hchild
      · cases hchild
    obtain ⟨hc,hnc,hxc,_⟩ := h.pending l child hused hp
    have hout : (s.setSocket l fun x => { x with pendingIndex := none }).Within fun j => False ∨ j = child := by
      refine Wired.unpend h hused hp fun j => ?_
      simp only [Local.setSocket,setPool,wiring_set]
      grind [LocalSocket.wiring,Pool.wiring]
    refine (hout.congr fun k => by simp).install ?_ (fun k hk => Or.inl ?_) thread new
    · rw [setSocket_pool]
      have := (h.held child hc hnc hxc).1
      split <;> exact this
    · exact setSocket_shrinks (fun _ => ⟨_,_,rfl⟩) k hk

def connected (p : Pool) (c l v : Slot) : Pool := fun k =>
  if k = v then { inUse := true, type := (p c).type, refcount := 1, address := (p l).address, peerIndex := some c }
  else
    { p k with
      peerIndex := if k = c then some v else (p k).peerIndex
      peerClosed := if k = c then false else (p k).peerClosed
      pendingIndex := if k = l then some v else (p k).pendingIndex }

theorem sysConnect_cases (s : Local) (thread fd : Nat) (addr : Option (Nat → UInt8)) (addrlen : Nat) :
    s.sysConnect thread fd addr addrlen = (-1,s) ∨ ∃ c l v, s.socketFromFd thread fd = some c ∧
      (s.pool c).type = sockStream ∧ (s.pool c).peerIndex = none ∧ (s.pool l).inUse = true ∧
        (s.pool l).listening = true ∧
      (s.pool l).pendingIndex = none ∧ (s.pool v).inUse = false ∧
      s.sysConnect thread fd addr addrlen = (0,s.setPool (connected s.pool c l v)) := by
  unfold sysConnect
  split
  swap
  · exact Or.inl rfl
  rename_i c a hc ha
  split
  · exact Or.inl rfl
  rename_i hguard
  split
  · exact Or.inl rfl
  rename_i l hl
  split
  · exact Or.inl rfl
  rename_i hlp
  split
  · exact Or.inl rfl
  rename_i v p hv
  obtain ⟨hfree,rfl⟩ := allocSocketSlot_spec hv
  have hcused : (s.pool c).inUse = true := (socketFromFd_eq_some.mp hc).2
  have hl' := find?_some hl
  simp only [Bool.and_eq_true,decide_eq_true_eq,Bool.or_eq_true,not_or,ne_eq] at hl' hguard
  refine Or.inr ⟨c,l,v,hc,by simpa using hguard.1.1,by simpa using hguard.1.2,hl'.1.1.1,hl'.1.1.2,by simpa using hlp,
    hfree,congrArg (fun p => (0,s.setPool p)) (funext fun k => ?_)⟩
  have hcv := ne_of_inUse hcused hfree
  have hlv := ne_of_inUse hl'.1.1.1 hfree
  by_cases hkv : k = v
  · simp [Pool.set,connected,hkv,hcv,hlv,Ne.symm hcv,Ne.symm hlv]
  simp only [Pool.set,connected,if_neg hkv]
  split_ifs <;> rfl

theorem Within.sysConnect (h : s.Sound) (thread fd : Nat) (addr : Option (Nat → UInt8)) (addrlen : Nat) :
    (s.sysConnect thread fd addr addrlen).2.Sound := by
  obtain he | ⟨c,l,v,hc,_,hpeer,hl,hlisten,hlp,hfree,he⟩ := sysConnect_cases s thread fd addr addrlen
  · rwa [he]
  rw [he]
  have hpos := socketFromFd_names hc
  have hcv := ne_of_inUse (socketFromFd_eq_some.mp hc).2 hfree
  have hlv := ne_of_inUse hl hfree
  have hnew := Wired.alloc h hfree fun _ => rfl
  refine Within.congr (Wired.connect hnew (Or.inr rfl) (if_pos rfl) hpos
    (l := l) (c := c) ?_ ?_ ?_ ?_ fun k => ?_) (by simp)
  · rwa [if_neg hcv]
  · rwa [if_neg hlv]
  · rwa [if_neg hlv]
  · rwa [if_neg hlv]
  simp only [setPool,Pool.wiring,connected]
  grind [LocalSocket.wiring]

theorem Within.localOpen {d : Descriptor} (h : s.Sound) (hd : 0 < s.names d.slot) :
    ({ s with fds := d :: s.fds }.localOpen d.slot).Sound ∧
      Shrinks s.pool ({ s with fds := d :: s.fds }.localOpen d.slot).pool := by
  have hused : (s.pool d.slot).inUse = true := (h.alive d.slot hd).1
  rw [Local.localOpen,if_pos hused]
  refine ⟨Wired.opened h hd (fun j => ?_) fun j => ?_,setSocket_shrinks fun _ => ⟨_,_,rfl⟩⟩
  · simp only [Local.setSocket,setPool,wiring_set]
    split <;> rfl
  · simp only [names,Local.setSocket,setPool,countP_cons]
    grind

theorem Within.copyFds (h : s.Sound) (source target : Nat) : (s.copyFds source target).Sound ∧
    Shrinks s.pool (s.copyFds source target).pool := by
  unfold Local.copyFds
  split
  · exact ⟨h,fun k hk => Kept.refl hk⟩
  have hpos : ∀ d ∈ s.fds.filter (·.thread = source), 0 < s.names d.slot := fun d hd =>
    countP_pos_iff.mpr ⟨d,(mem_filter.mp hd).1,by simp⟩
  clear * - h hpos
  generalize s.fds.filter (·.thread = source) = ds at hpos
  induction ds generalizing s with
  | nil => exact ⟨h,fun k hk => Kept.refl hk⟩
  | cons d ds ih =>
    obtain ⟨hopen,hshrinks⟩ := Within.localOpen (d := { d with thread := target }) h (hpos d (by simp))
    obtain ⟨hend,hrest⟩ := ih hopen fun e he => by
      have := hpos e (by simp [he])
      simp only [Local.localOpen,names,Local.setSocket,setPool] at this ⊢
      split <;> (rw [countP_cons]; omega)
    exact ⟨hend,fun k hk => (hshrinks k (hrest k hk).1).shrinks hrest hk⟩

theorem sound_step (h : s.Sound) (e : Event) : (s.step e).Sound := by
  cases e with
  | socket thread type protocol fd => exact (h.sysSocket thread type protocol fd).1
  | socketpair thread type fd fd' => exact (h.handleSocketpair thread type fd fd').1
  | bind thread fd addr addrlen =>
    obtain he | ⟨i,a,_,_,_,_,he⟩ := sysBind_cases s thread fd addr addrlen <;> rw [step,he]
    · exact h
    · exact h.setSocket i fun _ => rfl
  | listen thread fd => exact h.sysListen thread fd
  | connect thread fd addr addrlen => exact h.sysConnect thread fd addr addrlen
  | accept thread fd new => exact (h.sysAccept thread fd new).1
  | shutdown thread fd how =>
    simp only [step,sysShutdown]
    split
    · exact h
    · exact h.setSocket _ fun _ => rfl
  | send thread fd data =>
    obtain he | ⟨_,j,_,_,he⟩ := sysSend_cases s thread fd data <;> rw [step,he]
    · exact h
    · exact h.setSocket j fun _ => rfl
  | recv thread fd n =>
    obtain he | ⟨i,_,he⟩ := sysRecv_cases s thread fd n <;> rw [step,he]
    · exact h
    · exact h.setSocket i fun _ => rfl
  | clone source target => exact (h.copyFds source target).1
  | close thread fd => exact (h.sysClose thread fd).1

theorem sound_run (es : List Event) : (machine.run es).Sound := by
  refine machine.run_invariant (I := Sound) ?_ (fun _ e h => sound_step h e) es
  constructor <;> simp [machine,Pool.wiring,LocalSocket.wiring,names]

/-- In every run the peers among the slots in use name each other; a slot in use is counted by its descriptors or
waits at exactly one listener; a call that fails takes no slot; and without descriptors there are no slots in use.
-/
theorem slot_table (es : List Event) :
    let s := machine.run es
    (∀ i j, (s.pool i).inUse = true → (s.pool i).peerIndex = some j →
      (s.pool j).inUse = true ∧ (s.pool j).peerIndex = some i) ∧
    (∀ i, (s.pool i).inUse = true → (0 < s.names i ∧ (s.pool i).refcount = s.names i ∧
        ∀ l, (s.pool l).inUse = true → (s.pool l).pendingIndex ≠ some i) ∨
      s.names i = 0 ∧ (s.pool i).refcount = 1 ∧
        ∃! l, (s.pool l).inUse = true ∧ (s.pool l).listening = true ∧ (s.pool l).pendingIndex = some i) ∧
    (∀ d ∈ s.fds, (s.pool d.slot).inUse = true) ∧
    (∀ l i, (s.pool l).inUse = true → (s.pool l).pendingIndex = some i → (s.pool i).inUse = true) ∧
    (∀ thread type fd fd', (s.handleSocketpair thread type fd fd').1 < 0 →
      ∀ i, ((s.handleSocketpair thread type fd fd').2.pool i).inUse = true → (s.pool i).inUse = true) ∧
    (∀ thread fd addr addrlen, (s.sysConnect thread fd addr addrlen).1 < 0 →
      ∀ i, ((s.sysConnect thread fd addr addrlen).2.pool i).inUse = true → (s.pool i).inUse = true) ∧
    (∀ thread fd new, (s.sysAccept thread fd new).1 < 0 →
      ∀ i, ((s.sysAccept thread fd new).2.pool i).inUse = true → (s.pool i).inUse = true) ∧
    (s.fds = [] → ∀ i, (s.pool i).inUse = false) := by
  intro s
  have h : s.Sound := sound_run es
  refine ⟨h.peer,fun i hi => ?_,fun d hd => ?_,fun l i hl hp => (h.pending l i hl hp).1,
    fun thread type fd fd' => (h.handleSocketpair thread type fd fd').fails,fun thread fd addr addrlen hneg i hi => ?_,
    fun thread fd new => (h.sysAccept thread fd new).fails,fun hfds i => ?_⟩
  · cases Nat.eq_zero_or_pos (s.names i) with
    | inr hpos =>
      refine Or.inl ⟨hpos,(h.alive i hpos).2,fun l hl hp => ?_⟩
      have := (h.pending l i hl hp).2.1
      omega
    | inl hzero =>
      obtain ⟨hr,l,hl,hp⟩ := h.held i hi hzero id
      exact Or.inr ⟨hzero,hr,l,⟨hl,(h.pending l i hl hp).2.2.2,hp⟩,fun k hk => h.unique k l i hk.1 hl hk.2.2 hp⟩
  · exact (h.alive d.slot (countP_pos_iff.mpr ⟨d,hd,by simp⟩)).1
  · obtain he | ⟨_,_,_,_,_,_,_,_,_,_,he⟩ := sysConnect_cases s thread fd addr addrlen
    · rwa [he] at hi
    rw [he] at hneg
    exact absurd hneg (Int.lt_irrefl 0)
  have hnames : ∀ j, s.names j = 0 := by simp [names,hfds]
  by_contra hi
  obtain ⟨_,l,hl,hp⟩ := h.held i (Bool.eq_true_of_not_eq_false hi) (hnames i) id
  cases h.listening l hl (h.pending l i hl hp).2.2.2 with
  | inl hpos => exact absurd (hnames l) (by omega)
  | inr hx => exact hx

variable {s : Local} {i j k : Slot} {thread fd : Nat}

inductive Turn (s : Local) (q : Pool) (k : Slot) : Event → Prop where
  | kept {e : Event} (h : Kept (s.pool k) q k) : Turn s q k e
  | fresh {e : Event} (h : Fresh (s.pool k) (q k)) : Turn s q k e
  | dialled {thread fd addrlen : Nat} {addr : Option (Nat → UInt8)} (v : Slot) (c : Option Slot)
      (hk : s.socketFromFd thread fd = some k) (htype : (s.pool k).type = sockStream)
      (hpeer : (s.pool k).peerIndex = none)
        (h : q k = { s.pool k with peerIndex := some v, peerClosed := false, pendingIndex := c }) :
      Turn s q k (.connect thread fd addr addrlen)
  | bound {thread fd addrlen : Nat} {addr : Option (Nat → UInt8)} (a : Address)
      (hk : s.socketFromFd thread fd = some k) (h : q k = { s.pool k with address := some a }) :
      Turn s q k (.bind thread fd addr addrlen)
  | listens {thread fd : Nat} (hk : s.socketFromFd thread fd = some k)
      (h : q k = { s.pool k with listening := true }) : Turn s q k (.listen thread fd)
  | shut {thread fd how : Nat} (r w : Bool) (hk : s.socketFromFd thread fd = some k)
      (h : q k = { s.pool k with readShutdown := r, writeShutdown := w }) : Turn s q k (.shutdown thread fd how)
  | filled {thread fd : Nat} {data : List UInt8} {c : Slot} (hc : s.socketFromFd thread fd = some c)
      (hr : s.receiver c = some k) (h : q k = { s.pool k with rx := ((s.pool k).rx.write data).2 }) :
      Turn s q k (.send thread fd data)
  | drained {thread fd n : Nat} (hk : s.socketFromFd thread fd = some k)
      (h : q k = { s.pool k with rx := ((s.pool k).rx.read n).2 }) : Turn s q k (.recv thread fd n)

theorem Clean.turn {r : Int × Local} (h : s.Clean r) (e : Event) (hk : (r.2.pool k).inUse = true) :
    Turn s r.2.pool k e := by
  cases h.2 k hk with
  | inl h => exact .kept h
  | inr h => exact .fresh h.2

theorem setSocket_turn {f : LocalSocket → LocalSocket} {e : Event} {q : Pool} (hq : q = (s.setSocket i f).pool)
    (h : q i = f (s.pool i) → Turn s q i e) (hk : (q k).inUse = true) : Turn s q k e := by
  have hpool : ∀ j, q j = if j = i then f (s.pool j) else s.pool j := fun j => by rw [hq,setSocket_pool]
  by_cases hki : k = i
  · rw [hki]
    exact h (by rw [hpool,if_pos rfl])
  · have he : q k = s.pool k := by rw [hpool,if_neg hki]
    exact .kept (.of_eq (he ▸ hk) he)

theorem step_turn (h : s.Sound) (e : Event) (hk : ((s.step e).pool k).inUse = true) :
    Turn s (s.step e).pool k e := by
  cases e with
  | socket thread type protocol fd => exact (h.sysSocket thread type protocol fd).turn _ hk
  | socketpair thread type fd fd' => exact (h.handleSocketpair thread type fd fd').turn _ hk
  | accept thread fd new => exact (h.sysAccept thread fd new).turn _ hk
  | clone source target => exact .kept ((h.copyFds source target).2 k hk)
  | close thread fd => exact .kept ((h.sysClose thread fd).2.1 k hk)
  | bind thread fd addr addrlen =>
    obtain he | ⟨i,a,hi,_,_,_,he⟩ := sysBind_cases s thread fd addr addrlen <;> rw [step,he] at hk ⊢
    · exact .kept (.refl hk)
    · exact setSocket_turn rfl (.bound a hi) hk
  | listen thread fd =>
    obtain he | ⟨i,hi,he⟩ := sysListen_cases s thread fd <;> rw [step,he] at hk ⊢
    · exact .kept (.refl hk)
    · exact setSocket_turn rfl (.listens hi) hk
  | connect thread fd addr addrlen =>
    obtain he | ⟨c,l,v,hc,htype,hpeer,_,_,_,hfree,he⟩ := sysConnect_cases s thread fd addr addrlen <;>
      rw [step,he] at hk ⊢
    · exact .kept (.refl hk)
    change (connected s.pool c l v k).inUse = true at hk
    change Turn s (connected s.pool c l v) k _
    by_cases hkv : k = v
    · exact .fresh ⟨hkv ▸ hfree,_,_,_,_,if_pos hkv,fun _ => htype⟩
    by_cases hkc : k = c
    · subst hkc
      refine .dialled v (if k = l then some v else (s.pool k).pendingIndex) hc htype hpeer ?_
      simp only [connected,if_neg hkv,if_true]
    rw [connected,if_neg hkv] at hk
    refine .kept ⟨hk,(s.pool k).refcount,if k = l then some v else (s.pool k).pendingIndex,Or.inl ?_⟩
    simp only [connected,if_neg hkv,if_neg hkc]
  | shutdown thread fd how =>
    simp only [step,sysShutdown] at hk ⊢
    split at hk
    · exact .kept (.refl hk)
    rename_i i hi
    exact setSocket_turn rfl (.shut _ _ hi) hk
  | send thread fd data =>
    obtain he | ⟨c,j,hc,hr,he⟩ := sysSend_cases s thread fd data <;> rw [step,he] at hk ⊢
    · exact .kept (.refl hk)
    · exact setSocket_turn rfl (.filled hc hr) hk
  | recv thread fd n =>
    obtain he | ⟨i,hi,he⟩ := sysRecv_cases s thread fd n <;> rw [step,he] at hk ⊢
    · exact .kept (.refl hk)
    · exact setSocket_turn rfl (.drained hi) hk

end Local
end Rucux.Ipc
