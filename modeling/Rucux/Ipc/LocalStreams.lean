import Rucux.Ipc.LocalSlots
import Rucux.Lib.RingBuffer

/-!
The connections of stream sockets: which slots are the ends of one connection, and what passes between them.
-/

namespace Rucux.Ipc
open Lib Local List

namespace Ring
variable {r : Ring}

def contents (r : Ring) : List UInt8 := (range r.size).map fun i => r.buffer ((r.head + i) % bufferSize)

structure Ok (r : Ring) : Prop where
  head : r.head < bufferSize
  size : r.size ≤ bufferSize
  tail : r.tail = (r.head + r.size) % bufferSize

theorem blank_ok : Ok ⟨0,0,0,fun _ => 0⟩ := ⟨by decide,by decide,rfl⟩

theorem wrap_cases {x n : Nat} (h : x < 2*n) : x < n ∧ x % n = x ∨ n ≤ x ∧ x % n = x - n := by
  rw [RingBuffer.mod_of_lt_two_mul h]
  split <;> omega

theorem memcpy_twice (dst : Nat → UInt8) (k first len : Nat) (data : List UInt8) (hf : first ≤ len)
    (hl : len ≤ data.length) (p : Nat) :
    (if len > first then memcpy (memcpy dst k (data.take first)) 0 ((data.take len).drop first)
      else memcpy dst k (data.take first)) p =
    if p < len - first then data.getD (first + p) 0
    else if k ≤ p ∧ p < k + first then data.getD (p - k) 0 else dst p := by
  have h1 : (data.take first).length = first := by simp; omega
  have h2 : ((data.take len).drop first).length = len - first := by simp; omega
  by_cases hp : p < len - first
  · rw [if_pos (by omega),if_pos hp,memcpy,if_pos (by omega)]
    simp [getD,show first + p < len by omega]
  have hone : memcpy dst k (data.take first) p = if k ≤ p ∧ p < k + first then data.getD (p - k) 0 else dst p := by
    rw [memcpy,h1]
    split
    · simp [getD,show p - k < first by omega]
    · rfl
  rw [if_neg hp,← hone]
  split
  · rw [memcpy,if_neg (by omega)]
  · rfl

theorem Ok.write_eq (h : r.Ok) (data : List UInt8) :
    let len := min data.length (bufferSize - r.size)
    ∃ buffer, r.write data = (len,⟨r.head,(r.tail + len) % bufferSize,r.size + len,buffer⟩) ∧
      ∀ i, i < r.size + len → buffer ((r.head + i) % bufferSize) =
        if i < r.size then r.buffer ((r.head + i) % bufferSize) else data.getD (i - r.size) 0 := by
  obtain ⟨hh,hs,ht⟩ := h
  generalize hl : min data.length (bufferSize - r.size) = len
  intro len
  by_cases hc : bufferSize - r.size = 0
  · have hlen : len = 0 := by omega
    refine ⟨r.buffer,?_,fun i hi => (if_pos (by omega)).symm⟩
    simp only [Ring.write,if_pos hc,hlen,Nat.add_zero]
    rw [ht,Nat.mod_mod,← ht]
  have hlen : (if data.length > bufferSize - r.size then bufferSize - r.size else data.length) = len := by grind
  have hfirst : (if len > bufferSize - r.tail then bufferSize - r.tail else len) =
      min len (bufferSize - r.tail) := by
    grind
  simp only [Ring.write,if_neg hc,hlen,hfirst]
  refine ⟨_,rfl,fun i hi => ?_⟩
  rw [memcpy_twice _ _ _ _ _ (by omega) (by omega)]
  have hp := wrap_cases (show r.head + i < 2*bufferSize by omega)
  have ht' := wrap_cases (show r.head + r.size < 2*bufferSize by omega)
  rw [← ht] at ht'
  generalize (r.head + i) % bufferSize = p at *
  generalize bufferSize = N at *
  by_cases hi' : i < r.size
  · rw [if_pos hi',if_neg (by omega),if_neg (by omega)]
  rw [if_neg hi']
  split
  · exact congrArg (data.getD · 0) (by omega)
  rw [if_pos (by omega)]
  exact congrArg (data.getD · 0) (by omega)

theorem Ok.write (h : r.Ok) (data : List UInt8) : (r.write data).2.Ok ∧
    (r.write data).2.contents = r.contents ++ data.take (r.write data).1 := by
  obtain ⟨buffer,he,hbuf⟩ := h.write_eq data
  rw [he]
  refine ⟨⟨h.head,?_,?_⟩,?_⟩
  · have := h.size
    simp only
    omega
  · rw [h.tail,Nat.mod_add_mod,Nat.add_assoc]
  rw [contents,range_add,map_append,contents]
  congr 1
  · refine map_congr_left fun i hi => ?_
    have hi := mem_range.mp hi
    exact (hbuf i (by omega)).trans (if_pos hi)
  apply ext_getElem
  · simp
  intro i hi _
  simp only [length_map,length_range] at hi
  simp only [getElem_map,getElem_range,getElem_take]
  rw [hbuf _ (by omega),if_neg (by omega),Nat.add_sub_cancel_left]
  simp [getD,show i < data.length by omega]

theorem Ok.read (h : r.Ok) (n : Nat) : (r.read n).2.Ok ∧ (r.read n).1.length = min n r.size ∧
    r.contents = (r.read n).1 ++ (r.read n).2.contents := by
  obtain ⟨hh,hs,ht⟩ := h
  generalize hl : min n r.size = len
  have hlen : (if n > r.size then r.size else n) = len := by grind
  have hfst : (r.read n).1 = (range len).map fun i => r.buffer ((r.head + i) % bufferSize) := by
    simp only [Ring.read,hlen]
    by_cases hw : len > bufferSize - r.head
    · rw [if_pos hw,if_pos hw]
      nth_rewrite 2 [show len = (bufferSize - r.head) + (len - (bufferSize - r.head)) by omega]
      rw [range_add,map_append,map_map]
      congr 1
      · refine map_congr_left fun i hi => ?_
        rw [Nat.mod_eq_of_lt (by have := mem_range.mp hi; omega)]
      refine map_congr_left fun i hi => ?_
      have := mem_range.mp hi
      rw [Function.comp_apply,show r.head + (bufferSize - r.head + i) = bufferSize + i by omega,Nat.add_mod_left,
        Nat.mod_eq_of_lt (by omega)]
    rw [if_neg hw,if_neg (Nat.lt_irrefl len)]
    refine map_congr_left fun i hi => ?_
    rw [Nat.mod_eq_of_lt (by have := mem_range.mp hi; omega)]
  rw [hfst]
  refine ⟨⟨Nat.mod_lt _ (by decide),?_,?_⟩,by simp,?_⟩
  · simp only [Ring.read,hlen]
    omega
  · simp only [Ring.read,hlen,ht]
    rw [Nat.mod_add_mod]
    congr 1
    omega
  simp only [contents,Ring.read,hlen]
  rw [show r.size = len + (r.size - len) by omega,range_add,map_append,map_map,Nat.add_sub_cancel_left]
  congr 1
  refine map_congr_left fun i _ => ?_
  simp only [Function.comp_apply,Nat.mod_add_mod,Nat.add_assoc]

end Ring

structure PollEvents where
  pollin : Bool
  pollout : Bool
  pollhup : Bool

def Local.localPoll (s : Local) (i : Slot) : PollEvents :=
  if (s.pool i).listening then ⟨(s.pool i).pendingIndex.isSome,false,false⟩
  else
    ⟨(s.pool i).rx.size > 0 || (s.pool i).peerClosed,
      !(s.pool i).writeShutdown && (s.pool i).peerIndex.any fun j =>
        (s.pool j).inUse && !(s.pool j).readShutdown && (s.pool j).rx.size < bufferSize,
      (s.pool i).peerClosed && (s.pool i).rx.size = 0⟩

def Local.pollFd (s : Local) (thread fd : Nat) : PollEvents :=
  match s.socketFromFd thread fd with
  | none => ⟨false,false,false⟩
  | some i => s.localPoll i

def Local.Receivable (s : Local) (k : Slot) : Prop := (s.pool k).type = sockStream ∧
  (s.pool k).readShutdown = false ∧ ((s.pool k).rx.size ≠ 0 ∨ (s.pool k).peerClosed = true)

def Local.Sendable (s : Local) (k : Slot) : Prop := (s.pool k).writeShutdown = false ∧
  ∃ j, (s.pool k).peerIndex = some j ∧ (s.pool j).readShutdown = false ∧ (s.pool j).rx.size < bufferSize

abbrev End := Nat × Slot × Bool

def End.other (x : End) : End := (x.1,x.2.1,!x.2.2)

/-- The sockets with what they are ends of, and what was sent and received at each end so far. -/
structure Streams where
  sockets : Local
  time : Nat
  ends : Slot → Option End
  sent : End → List UInt8
  received : End → List UInt8

namespace Streams

/-- A slot with a peer that it did not have before is an end of a new connection. -/
def newEnds (s : Streams) (t : Local) (k : Slot) : Option End :=
  if (t.pool k).inUse then
    match (t.pool k).peerIndex with
    | none => s.ends k
    | some j =>
      if (s.sockets.pool k).inUse ∧ (s.sockets.pool k).peerIndex = some j then s.ends k
      else some (s.time,min k j,decide (k < j))
  else none

def log (logs : End → List UInt8) (x : Option End) (data : List UInt8) : End → List UInt8 :=
  fun y => if x = some y then logs y ++ data else logs y

def step (s : Streams) (e : Event) : Streams where
  sockets := s.sockets.step e
  time := s.time + 1
  ends := s.newEnds (s.sockets.step e)
  sent := match e with
    | .send thread fd data => log s.sent ((s.sockets.socketFromFd thread fd).bind s.ends)
        (data.take (s.sockets.sysSend thread fd data).1.toNat)
    | _ => s.sent
  received := match e with
    | .recv thread fd n => log s.received ((s.sockets.socketFromFd thread fd).bind s.ends)
        (s.sockets.sysRecv thread fd n).2.1
    | _ => s.received

def machine : Machine Streams Event := ⟨⟨Local.machine.initial,0,fun _ => none,fun _ => [],fun _ => []⟩,step⟩

/-- The ends of connections are with the sockets that name each other, and a socket knows whether the other
end has gone. -/
structure Paired (s : Streams) : Prop where
  sound : s.sockets.Sound
  free : ∀ k, (s.sockets.pool k).inUse = false → s.ends k = none
  old : ∀ k x, s.ends k = some x → x.1 < s.time
  unique : ∀ j k x, s.ends j = some x → s.ends k = some x → j = k
  mate : ∀ k j, (s.sockets.pool k).inUse = true → (s.sockets.pool k).peerIndex = some j →
    ∃ x, s.ends k = some x ∧ s.ends j = some x.other
  lone : ∀ j k x, s.ends k = some x → (s.sockets.pool k).peerIndex = none → s.ends j ≠ some x.other
  closed : ∀ k, (s.sockets.pool k).inUse = true →
    ((s.sockets.pool k).peerClosed = true ↔ (s.sockets.pool k).peerIndex = none ∧ (s.ends k).isSome = true)
  type : ∀ k x, s.ends k = some x → (s.sockets.pool k).type = sockStream
  ring : ∀ k, (s.sockets.pool k).inUse = true → (s.sockets.pool k).rx.Ok

variable {s : Streams} {e : Event} {j k : Slot} {x : End}

theorem newEnds_inUse {t : Local} (h : s.newEnds t k = some x) : (t.pool k).inUse = true := by
  by_contra hk
  rw [newEnds,if_neg hk] at h
  cases h

def dials (s : Streams) : Event → Option Slot
  | .connect thread fd _ _ => s.sockets.socketFromFd thread fd
  | _ => none

def carries : Event → Bool
  | .send .. => true
  | .recv .. => true
  | _ => false

/-- What an event makes of a slot in use after it: the end it was, perhaps without its peer; a new socket without
one; or an end of a new connection. -/
inductive Becomes (s : Streams) (e : Event) (t : Local) (k : Slot) : Prop where
  | same (hu : (s.sockets.pool k).inUse = true) (he : s.newEnds t k = s.ends k)
      (hp : (t.pool k).peerIndex = (s.sockets.pool k).peerIndex)
      (hc : (t.pool k).peerClosed = (s.sockets.pool k).peerClosed) (ht : (t.pool k).type = (s.sockets.pool k).type)
      (hr : carries e = false → (t.pool k).rx = (s.sockets.pool k).rx)
  | left (j : Slot) (hu : (s.sockets.pool k).inUse = true) (he : s.newEnds t k = s.ends k)
      (hj : (s.sockets.pool k).peerIndex = some j) (hgone : (t.pool j).inUse = false) (hp : (t.pool k).peerIndex = none)
      (hc : (t.pool k).peerClosed = true) (ht : (t.pool k).type = (s.sockets.pool k).type)
      (hr : (t.pool k).rx = (s.sockets.pool k).rx)
  | new (hu : (s.sockets.pool k).inUse = false) (he : s.newEnds t k = none) (hp : (t.pool k).peerIndex = none)
      (hc : (t.pool k).peerClosed = false)
  | joined (j : Slot) (hu : ¬((s.sockets.pool k).inUse = true ∧ (s.sockets.pool k).peerIndex = some j))
      (he : s.newEnds t k = some (s.time,min k j,decide (k < j))) (hp : (t.pool k).peerIndex = some j)
      (hc : (t.pool k).peerClosed = false) (ht : (t.pool k).type = sockStream)
      (hr : (t.pool k).rx = ⟨0,0,0,fun _ => 0⟩ ∨ s.dials e = some k ∧ (t.pool k).rx = (s.sockets.pool k).rx)

theorem newEnds_same {t : Local} (hu : (s.sockets.pool k).inUse = true) (hk : (t.pool k).inUse = true)
    (hp : (t.pool k).peerIndex = (s.sockets.pool k).peerIndex) : s.newEnds t k = s.ends k := by
  rw [newEnds,if_pos hk,hp]
  cases hj : (s.sockets.pool k).peerIndex with
  | none => rfl
  | some j => exact if_pos ⟨hu,rfl⟩

theorem newEnds_joined {t : Local} (hk : (t.pool k).inUse = true) (hp : (t.pool k).peerIndex = some j)
    (hu : ¬((s.sockets.pool k).inUse = true ∧ (s.sockets.pool k).peerIndex = some j)) :
    s.newEnds t k = some (s.time,min k j,decide (k < j)) := by
  rw [newEnds,if_pos hk,hp]
  exact if_neg hu

theorem Paired.becomes (h : s.Paired) (e : Event) (hk : ((s.sockets.step e).pool k).inUse = true) :
    s.Becomes e (s.sockets.step e) k ∧ ((s.sockets.step e).pool k).rx.Ok := by
  have hsame : (s.sockets.pool k).inUse = true →
      ((s.sockets.step e).pool k).peerIndex = (s.sockets.pool k).peerIndex →
      ((s.sockets.step e).pool k).peerClosed = (s.sockets.pool k).peerClosed →
      ((s.sockets.step e).pool k).type = (s.sockets.pool k).type →
      (carries e = false → ((s.sockets.step e).pool k).rx = (s.sockets.pool k).rx) → s.Becomes e (s.sockets.step e) k :=
    fun hu hp => .same hu (newEnds_same hu hk hp) hp
  generalize hq : s.sockets.step e = t at *
  cases hq ▸ step_turn h.sound e (hq ▸ hk) with
  | kept hkept =>
    obtain ⟨hu,_,_,he | ⟨j,hj,hgone,he⟩⟩ := hkept
    · rw [he] at hsame ⊢
      exact ⟨hsame hu rfl rfl rfl fun _ => rfl,h.ring k hu⟩
    · refine ⟨.left j hu ?_ hj hgone (by rw [he]) (by rw [he]) (by rw [he]) (by rw [he]),by rw [he]; exact h.ring k hu⟩
      rw [newEnds,if_pos hk,he]
  | fresh hfresh =>
    obtain ⟨hu,_,_,_,q,he,ht⟩ := hfresh
    refine ⟨?_,by rw [he]; exact Ring.blank_ok⟩
    cases q with
    | none =>
      refine .new hu ?_ (by rw [he]) (by rw [he])
      rw [newEnds,if_pos hk,he]
      exact h.free k hu
    | some j =>
      have hnot : ¬((s.sockets.pool k).inUse = true ∧ (s.sockets.pool k).peerIndex = some j) := by simp [hu]
      exact .joined j hnot (newEnds_joined hk (by rw [he]) hnot) (by rw [he]) (by rw [he])
        (by rw [he]; exact ht (by simp)) (Or.inl (by rw [he]))
  | dialled v c hk' ht hpeer he =>
    have hu := (socketFromFd_eq_some.mp hk').2
    have hnot : ¬((s.sockets.pool k).inUse = true ∧ (s.sockets.pool k).peerIndex = some v) := by simp [hpeer]
    exact ⟨.joined v hnot (newEnds_joined hk (by rw [he]) hnot) (by rw [he]) (by rw [he]) (by rw [he]; exact ht)
      (Or.inr ⟨hk',by rw [he]⟩),by rw [he]; exact h.ring k hu⟩
  | bound a hk' he | listens hk' he | shut r w hk' he =>
    have hu := (socketFromFd_eq_some.mp hk').2
    rw [he] at hsame ⊢
    exact ⟨hsame hu rfl rfl rfl fun _ => rfl,h.ring k hu⟩
  | filled hc hr he =>
    have hu := (receiver_eq_some.mp hr).2.2.2.1
    rw [he] at hsame ⊢
    exact ⟨hsame hu rfl rfl rfl fun hq => Bool.noConfusion hq,((h.ring k hu).write _).1⟩
  | drained hk' he =>
    have hu := (socketFromFd_eq_some.mp hk').2
    rw [he] at hsame ⊢
    exact ⟨hsame hu rfl rfl rfl fun hq => Bool.noConfusion hq,((h.ring k hu).read _).1⟩

theorem Paired.step (h : s.Paired) (e : Event) : (s.step e).Paired := by
  have hb : ∀ k x, s.newEnds (s.sockets.step e) k = some x → s.Becomes e (s.sockets.step e) k := fun k x hx =>
    (h.becomes e (newEnds_inUse hx)).1
  have hsound := sound_step h.sound e
  -- A new connection has the time of this event, and no old end has it.
  have hcarried : ∀ k x, s.newEnds (s.sockets.step e) k = some x → x.1 < s.time → s.ends k = some x := by
    intro k x hx hlt
    cases hb k x hx with
    | same _ he => rwa [← he]
    | left _ _ he => rwa [← he]
    | new _ he => simp [he] at hx
    | joined j _ he =>
      rw [he] at hx
      cases hx
      exact absurd hlt (Nat.lt_irrefl _)
  have hmate : ∀ k j, ((s.sockets.step e).pool k).inUse = true → ((s.sockets.step e).pool k).peerIndex = some j →
      ∃ x, s.newEnds (s.sockets.step e) k = some x ∧ s.newEnds (s.sockets.step e) j = some x.other := by
    intro k j hk hp
    obtain ⟨hj,hpj⟩ := hsound.peer k j hk hp
    have hne : k ≠ j := fun e' => hsound.distinct k hk (e' ▸ hp)
    by_cases hold : (s.sockets.pool k).inUse = true ∧ (s.sockets.pool k).peerIndex = some j
    · obtain ⟨hj',hpj'⟩ := h.sound.peer k j hold.1 hold.2
      rw [newEnds_same hold.1 hk (hp.trans hold.2.symm),newEnds_same hj' hj (hpj.trans hpj'.symm)]
      exact h.mate k j hold.1 hold.2
    have hold' : ¬((s.sockets.pool j).inUse = true ∧ (s.sockets.pool j).peerIndex = some k) := fun hj' =>
      hold (h.sound.peer j k hj'.1 hj'.2)
    rw [newEnds_joined hk hp hold,newEnds_joined hj hpj hold']
    have hside : decide (j < k) = !decide (k < j) := by
      cases lt_or_gt_of_ne hne with
      | inl hlt => simp [hlt,hlt.le]
      | inr hgt => simp [hgt,hgt.le]
    exact ⟨_,rfl,by rw [End.other,min_comm,hside]⟩
  have hnew : ∀ k x, s.newEnds (s.sockets.step e) k = some x → ¬x.1 < s.time →
      ∃ j, ((s.sockets.step e).pool k).peerIndex = some j ∧ x = (s.time,min k j,decide (k < j)) := by
    intro k x hx hge
    cases hb k x hx with
    | same _ he => exact absurd (h.old k x (he ▸ hx)) hge
    | left _ _ he => exact absurd (h.old k x (he ▸ hx)) hge
    | new _ he => simp [he] at hx
    | joined j _ he hp => exact ⟨j,hp,(Option.some.inj (he.symm.trans hx)).symm⟩
  refine ⟨hsound,fun k hk => ?_,fun k x hx => ?_,fun j k x hj hk => ?_,hmate,fun j k x hx hp hj => ?_,fun k hk => ?_,
    fun k x hx => ?_,fun k hk => (h.becomes e hk).2⟩
  · exact if_neg fun hk' => Bool.false_ne_true (hk.symm.trans hk')
  · by_cases hlt : x.1 < s.time
    · exact Nat.lt_succ_of_lt hlt
    obtain ⟨_,_,rfl⟩ := hnew k x hx hlt
    exact Nat.lt_succ_self _
  · by_cases hlt : x.1 < s.time
    · exact h.unique j k x (hcarried j x hj hlt) (hcarried k x hk hlt)
    obtain ⟨i,hi,rfl⟩ := hnew j x hj hlt
    obtain ⟨i',hi',he⟩ := hnew k _ hk hlt
    obtain ⟨_,hpi⟩ := hsound.peer j i (newEnds_inUse hj) hi
    obtain ⟨_,hpi'⟩ := hsound.peer k i' (newEnds_inUse hk) hi'
    grind
  · cases hb k x hx with
    | same _ he hp' =>
      have hx' : s.ends k = some x := he ▸ hx
      exact h.lone j k x hx' (hp' ▸ hp) (hcarried j _ hj (h.old k x hx'))
    | left i hu he hi hgone =>
      have hx' : s.ends k = some x := he ▸ hx
      obtain ⟨y,hy,hyi⟩ := h.mate k i hu hi
      obtain rfl := Option.some.inj (hx'.symm.trans hy)
      obtain rfl := h.unique i j _ hyi (hcarried j _ hj (h.old k x hx'))
      exact Pool.ne_of_inUse (newEnds_inUse hj) hgone rfl
    | new _ he => exact absurd (he.symm.trans hx) (by simp)
    | joined i _ _ hp' => exact absurd (hp'.symm.trans hp) (by simp)
  · change ((s.sockets.step e).pool k).peerClosed = true ↔
      ((s.sockets.step e).pool k).peerIndex = none ∧ (s.newEnds (s.sockets.step e) k).isSome = true
    cases (h.becomes e hk).1 with
    | same hu he hp hc =>
      rw [he,hp,hc]
      exact h.closed k hu
    | left j hu he hj _ hp hc =>
      obtain ⟨x,hx,_⟩ := h.mate k j hu hj
      simp [hp,hc,he,hx]
    | new _ he hp hc => simp [hp,hc,he]
    | joined j _ _ hp hc => simp [hp,hc]
  cases hb k x hx with
  | same _ he _ _ ht => exact ht.trans (h.type k x (he ▸ hx))
  | left _ _ he _ _ _ _ ht => exact ht.trans (h.type k x (he ▸ hx))
  | new _ he => exact absurd (he.symm.trans hx) (by simp)
  | joined _ _ _ _ _ ht => exact ht

theorem paired_run (es : List Event) : (machine.run es).Paired := by
  refine machine.run_invariant (I := Paired) ⟨sound_run [],?_,?_,?_,?_,?_,?_,?_,?_⟩ (fun _ e h => h.step e) es
  all_goals simp [machine,Local.machine]

/-- A socket is connected with nothing left in its ring, and not shut down. -/
def CleanConnect (s : Streams) (e : Event) : Prop := ∀ k, s.dials e = some k →
  (s.sockets.pool k).rx.size = 0 ∧ (s.sockets.pool k).readShutdown = false ∧ (s.sockets.pool k).writeShutdown = false

instance (s : Streams) (e : Event) : Decidable (s.CleanConnect e) :=
  inferInstanceAs (Decidable (∀ k, s.dials e = some k → (s.sockets.pool k).rx.size = 0 ∧
    (s.sockets.pool k).readShutdown = false ∧ (s.sockets.pool k).writeShutdown = false))

/-- What was sent at one end is what was received at the other and what still waits there. -/
structure Flow (s : Streams) : Prop where
  paired : s.Paired
  unused : ∀ x : End, s.time ≤ x.1 → s.sent x = [] ∧ s.received x = []
  flow : ∀ k x, s.ends k = some x → s.received x ++ (s.sockets.pool k).rx.contents = s.sent x.other
  heard : ∀ x, s.received x <+: s.sent x.other

@[simp] theorem End.other_other (x : End) : x.other.other = x := by simp [End.other]

theorem log_nil (logs : End → List UInt8) (x : Option End) : log logs x [] = logs := by
  funext y
  simp [log]

theorem Flow.quiet (h : s.Flow) (hok : s.CleanConnect e) (hq : carries e = false) : (s.step e).Flow := by
  have hlogs : (s.step e).sent = s.sent ∧ (s.step e).received = s.received := by
    cases e with
    | send => cases hq
    | recv => cases hq
    | _ => exact ⟨rfl,rfl⟩
  refine ⟨h.paired.step e,?_,?_,?_⟩ <;> rw [hlogs.1,hlogs.2]
  · exact fun x hx => h.unused x (Nat.le_of_succ_le hx)
  · intro k x hx
    change s.received x ++ ((s.sockets.step e).pool k).rx.contents = s.sent x.other
    cases (h.paired.becomes e (newEnds_inUse hx)).1 with
    | same _ he _ _ _ hr =>
      rw [hr hq]
      exact h.flow k x (he ▸ hx)
    | left _ _ he _ _ _ _ _ hr =>
      rw [hr]
      exact h.flow k x (he ▸ hx)
    | new _ he => exact absurd (he.symm.trans hx) (by simp)
    | joined j _ he _ _ _ hr =>
      obtain rfl := Option.some.inj (he.symm.trans hx)
      rw [(h.unused _ (le_rfl)).2,(h.unused _ (le_rfl)).1]
      obtain hr | ⟨hd,hr⟩ := hr
      · rw [hr]
        rfl
      · rw [hr,Ring.contents,(hok k hd).1]
        rfl
  · exact h.heard

theorem newEnds_eq (h : s.Paired) {t : Local} (ht : ∀ k, (t.pool k).inUse = (s.sockets.pool k).inUse ∧
    (t.pool k).peerIndex = (s.sockets.pool k).peerIndex) : s.newEnds t = s.ends := by
  funext k
  by_cases hk : (s.sockets.pool k).inUse = true
  · exact newEnds_same hk ((ht k).1.trans hk) (ht k).2
  · rw [newEnds,if_neg (by rwa [(ht k).1]),h.free k (Bool.eq_false_of_not_eq_true hk)]

theorem newEnds_ring (h : s.Paired) (i : Slot) (f : Ring → Ring) :
    s.newEnds (s.sockets.setSocket i fun x => { x with rx := f x.rx }) = s.ends := by
  refine newEnds_eq h fun k => ?_
  rw [setSocket_pool]
  split <;> exact ⟨rfl,rfl⟩

theorem Flow.send (h : s.Flow) (thread fd : Nat) (data : List UInt8) : (s.step (.send thread fd data)).Flow := by
  have hp := h.paired.step (.send thread fd data)
  obtain he | ⟨c,j,hc,hr,he⟩ := sysSend_cases s.sockets thread fd data
  · have hs : s.step (.send thread fd data) = { s with time := s.time + 1 } := by
      simp only [Streams.step,Local.step,he,newEnds_eq h.paired fun _ => ⟨rfl,rfl⟩]
      rw [show data.take (-1 : Int).toNat = [] from rfl,log_nil]
    rw [hs] at hp ⊢
    exact ⟨hp,fun x hx => h.unused x (Nat.le_of_succ_le hx),h.flow,h.heard⟩
  obtain ⟨_,_,hpeer,hj,_⟩ := receiver_eq_some.mp hr
  obtain ⟨y,hy,hyj⟩ := h.paired.mate c j (socketFromFd_eq_some.mp hc).2 hpeer
  have hs : s.step (.send thread fd data) =
      ⟨s.sockets.setSocket j fun x => { x with rx := (x.rx.write data).2 },s.time + 1,s.ends,
        log s.sent (some y) (data.take ((s.sockets.pool j).rx.write data).1),s.received⟩ := by
    simp only [Streams.step,Local.step,he,hc,Option.bind_some,hy]
    rw [newEnds_ring h.paired j fun r => (r.write data).2]
    rfl
  rw [hs] at hp ⊢
  refine ⟨hp,fun x hx => ⟨?_,(h.unused x (Nat.le_of_succ_le hx)).2⟩,fun k x hx => ?_,fun x => ?_⟩
  · have hne : ¬some y = some x := fun e => absurd (h.paired.old c y hy) (by
      rw [Option.some.inj e]
      exact Nat.not_lt.mpr (Nat.le_of_succ_le hx))
    exact (if_neg hne).trans (h.unused x (Nat.le_of_succ_le hx)).1
  · simp only [setSocket_pool,log]
    by_cases hkj : k = j
    · subst hkj
      obtain rfl := Option.some.inj (hx.symm.trans hyj)
      rw [if_pos rfl,if_pos (by simp),((h.paired.ring k hj).write data).2,← append_assoc,h.flow k _ hx]
    have hne : ¬some y = some x.other := fun e => hkj (h.paired.unique k j x hx (by
      rw [hyj,Option.some.inj e,End.other_other]))
    rw [if_neg hkj,if_neg hne]
    exact h.flow k x hx
  refine (h.heard x).trans ?_
  simp only [log]
  split
  · exact prefix_append _ _
  · exact prefix_refl _

theorem Flow.recv (h : s.Flow) (thread fd n : Nat) : (s.step (.recv thread fd n)).Flow := by
  have hp := h.paired.step (.recv thread fd n)
  obtain he | ⟨i,hi,he⟩ := sysRecv_cases s.sockets thread fd n
  · have hs : s.step (.recv thread fd n) = { s with time := s.time + 1 } := by
      simp only [Streams.step,Local.step,he,newEnds_eq h.paired fun _ => ⟨rfl,rfl⟩,log_nil]
    rw [hs] at hp ⊢
    exact ⟨hp,fun x hx => h.unused x (Nat.le_of_succ_le hx),h.flow,h.heard⟩
  obtain ⟨_,_,hcut⟩ := (h.paired.ring i (socketFromFd_eq_some.mp hi).2).read n
  have hs : s.step (.recv thread fd n) =
      ⟨s.sockets.setSocket i fun x => { x with rx := (x.rx.read n).2 },s.time + 1,s.ends,s.sent,
        log s.received (s.ends i) ((s.sockets.pool i).rx.read n).1⟩ := by
    simp only [Streams.step,Local.step,he,hi,Option.bind_some]
    rw [newEnds_ring h.paired i fun r => (r.read n).2]
  rw [hs] at hp ⊢
  have hflow : ∀ k x, s.ends k = some x → log s.received (s.ends i) ((s.sockets.pool i).rx.read n).1 x ++
      ((s.sockets.setSocket i fun x => { x with rx := (x.rx.read n).2 }).pool k).rx.contents = s.sent x.other := by
    intro k x hx
    simp only [setSocket_pool,log]
    by_cases hki : k = i
    · subst hki
      rw [if_pos hx,if_pos rfl,append_assoc,← hcut,h.flow k x hx]
    · rw [if_neg hki,if_neg fun hi => hki (h.paired.unique k i x hx hi)]
      exact h.flow k x hx
  refine ⟨hp,fun x hx => ⟨(h.unused x (Nat.le_of_succ_le hx)).1,?_⟩,hflow,fun x => ?_⟩
  · refine (if_neg fun hi => ?_).trans (h.unused x (Nat.le_of_succ_le hx)).2
    exact absurd (h.paired.old i x hi) (Nat.not_lt.mpr (Nat.le_of_succ_le hx))
  by_cases hx : s.ends i = some x
  · exact ⟨_,hflow i x hx⟩
  simp only [log,if_neg hx]
  exact h.heard x

theorem Flow.step (h : s.Flow) (e : Event) (hok : s.CleanConnect e) : (s.step e).Flow := by
  cases e with
  | send thread fd data => exact h.send thread fd data
  | recv thread fd n => exact h.recv thread fd n
  | _ => exact h.quiet hok rfl

theorem flow_run (es : List Event) (hok : machine.Along CleanConnect machine.initial es) : (machine.run es).Flow := by
  refine machine.runFrom_invariant CleanConnect (fun s e h => h.step e) ⟨paired_run [],?_,?_,?_⟩ es hok
  all_goals simp [machine]

theorem Paired.sysSend_fst (h : s.Paired) {thread fd : Nat} (hk : s.sockets.socketFromFd thread fd = some k)
    (hp : (s.sockets.pool k).peerIndex = some j) (hw : (s.sockets.pool k).writeShutdown = false)
    (hr : (s.sockets.pool j).readShutdown = false) (hroom : (s.sockets.pool j).rx.size < bufferSize)
    (data : List UInt8) :
    (s.sockets.sysSend thread fd data).1 = (min data.length (bufferSize - (s.sockets.pool j).rx.size) : Nat) := by
  have hu := (socketFromFd_eq_some.mp hk).2
  obtain ⟨x,hx,_⟩ := h.mate k j hu hp
  have hj := (h.sound.peer k j hu hp).1
  have hrecv : s.sockets.receiver k = some j := receiver_eq_some.mpr ⟨h.type k x hx,hw,hp,hj,hr⟩
  obtain ⟨buffer,he,_⟩ := (h.ring j hj).write_eq data
  simp only [sysSend,hk,Option.bind_some,hrecv,he]
  rw [if_neg (by omega)]

/-- Where sockets are connected only with an empty ring and before they are shut down, what is received at an
end of a connection is the beginning of what was sent at the other end, and a new connection takes what fits. -/
theorem local_stream_integrity (es : List Event) (hok : machine.Along CleanConnect machine.initial es) :
    let s := machine.run es
    (∀ x, s.received x <+: s.sent x.other) ∧
    (∀ k j, (s.sockets.pool k).inUse = true → (s.sockets.pool k).peerIndex = some j →
      ∃ x, s.ends k = some x ∧ s.ends j = some x.other) ∧
    (∀ thread fd k j data, s.sockets.socketFromFd thread fd = some k → (s.sockets.pool k).peerIndex = some j →
      (s.sockets.pool k).writeShutdown = false → (s.sockets.pool j).readShutdown = false →
      (s.sockets.pool j).rx.size < bufferSize →
      (s.sockets.sysSend thread fd data).1 = (min data.length (bufferSize - (s.sockets.pool j).rx.size) : Nat)) ∧
    ∀ thread fd addr addrlen k, s.sockets.socketFromFd thread fd = some k →
      s.CleanConnect (.connect thread fd addr addrlen) → (s.sockets.sysConnect thread fd addr addrlen).1 = 0 →
      let t := (s.sockets.sysConnect thread fd addr addrlen).2
      ∃ j, (t.pool k).peerIndex = some j ∧ (t.pool k).writeShutdown = false ∧ (t.pool k).readShutdown = false ∧
        (t.pool k).rx.size = 0 ∧ (t.pool j).writeShutdown = false ∧ (t.pool j).readShutdown = false ∧
        (t.pool j).rx.size = 0 := by
  intro s
  have h : s.Flow := flow_run es hok
  refine ⟨h.heard,h.paired.mate,fun thread fd k j data hk hp hw hr hroom => h.paired.sysSend_fst hk hp hw hr hroom data,
    fun thread fd addr addrlen k hk hclean hzero => ?_⟩
  obtain he | ⟨c,l,v,hc,_,_,_,_,_,hfree,he⟩ := sysConnect_cases s.sockets thread fd addr addrlen
  · rw [he] at hzero
    exact absurd hzero (show ¬(-1 : Int) = 0 by decide)
  obtain rfl := Option.some.inj (hc.symm.trans hk)
  obtain ⟨hring,hrs,hws⟩ := hclean c hk
  have hcv := Pool.ne_of_inUse (socketFromFd_eq_some.mp hk).2 hfree
  rw [he]
  exact ⟨v,by simp [setPool,connected,hcv,hring,hrs,hws]⟩

/-- The survivor of a pair is connected again with a byte left in its ring, or shut down before. -/
def reconnected (before : List Event) : List Event :=
  let addr := some (sockaddrUn [0x61])
  .socketpair 0 1 (some 3) (some 4) :: before ++ [.close 0 4,.socket 0 1 0 (some 5),.bind 0 5 addr 3,.listen 0 5,
    .connect 0 3 addr 3]

theorem stream_mixed :
    let s := machine.run (reconnected [.send 0 4 [7]] ++ [.recv 0 3 1])
    let s' := machine.run (reconnected [.shutdown 0 3 1])
    s.received (6,0,true) = [7] ∧ s.sent (6,0,false) = [] ∧ s.ends 0 = some (6,0,true) ∧
    s'.ends 0 = some (6,0,true) ∧ (s'.sockets.pool 2).rx.size = 0 ∧ (s'.sockets.sysSend 0 3 [7]).1 = -1 := by
  decide +kernel

def answered : List Event := reconnected [] ++ [.accept 0 5 (some 6),.send 0 6 [7],.recv 0 3 1]

theorem local_stream_integrity_pair :
    (machine.run answered).received (5,0,true) = [7] ∧ [7] <+: (machine.run answered).sent (5,0,false) := by
  have h := (local_stream_integrity answered (by decide +kernel)).1 (5,0,true)
  have he : (machine.run answered).received (5,0,true) = [7] := by
    decide +kernel
  exact ⟨he,he ▸ h⟩

theorem Paired.sysRecv_fst (h : s.Paired) {thread fd n : Nat} (hk : s.sockets.socketFromFd thread fd = some k)
    (hn : n ≠ 0) : (0 ≤ (s.sockets.sysRecv thread fd n).1 ↔ s.sockets.Receivable k) ∧
      ((s.sockets.sysRecv thread fd n).1 = 0 ↔ s.sockets.Receivable k ∧ (s.sockets.pool k).rx.size = 0) := by
  have hlen := ((h.ring k (socketFromFd_eq_some.mp hk).2).read n).2.1
  simp only [sysRecv,hk,Option.filter_some,Receivable]
  split
  · grind
  · grind

theorem Paired.sysSend_fails (h : s.Paired) {thread fd : Nat} (hk : s.sockets.socketFromFd thread fd = some k)
    (hno : ¬s.sockets.Sendable k) {data : List UInt8} (hdata : data ≠ []) :
    s.sockets.sysSend thread fd data = (-1,s.sockets) := by
  cases hr : s.sockets.receiver k with
  | none => simp only [sysSend,hk,Option.bind_some,hr]
  | some j =>
    obtain ⟨_,hwk,hp,hj,hrj⟩ := receiver_eq_some.mp hr
    have hfull : ¬(s.sockets.pool j).rx.size < bufferSize := fun hroom => hno ⟨hwk,j,hp,hrj,hroom⟩
    obtain ⟨buffer,he,_⟩ := (h.ring j hj).write_eq data
    have hlen := length_pos_iff.mpr hdata
    simp only [sysSend,hk,Option.bind_some,hr,he]
    rw [if_pos (by omega)]

theorem Paired.sysSend_sendable (h : s.Paired) {thread fd : Nat} (hk : s.sockets.socketFromFd thread fd = some k)
    (hsend : s.sockets.Sendable k) {data : List UInt8} (hdata : data ≠ []) :
    0 < (s.sockets.sysSend thread fd data).1 ∧ (s.sockets.sysSend thread fd data).1 ≤ data.length := by
  obtain ⟨hwk,j,hp,hrj,hroom⟩ := hsend
  have hlen := length_pos_iff.mpr hdata
  rw [h.sysSend_fst hk hp hwk hrj hroom]
  omega

theorem Paired.peerClosed_iff (h : s.Paired) (hu : (s.sockets.pool k).inUse = true) (hx : s.ends k = some x) :
    (s.sockets.pool k).peerClosed = true ↔ ∀ j, s.ends j ≠ some x.other := by
  rw [h.closed k hu]
  refine ⟨fun hc j => h.lone j k x hx hc.1,fun hj => ⟨?_,by simp [hx]⟩⟩
  by_contra hne
  obtain ⟨j,hp⟩ := Option.ne_none_iff_exists'.mp hne
  obtain ⟨y,hy,hyj⟩ := h.mate k j hu hp
  obtain rfl := Option.some.inj (hx.symm.trans hy)
  exact hj j hyj

/-- The end of the stream is told, and polling tells what can be received and sent, unless an end with an empty ring
is shut down where it matters, or an end listens. -/
theorem stream_readiness (es : List Event) (thread fd n : Nat) (b : UInt8) (k : Slot) (x : End)
    (hk : (machine.run es).sockets.socketFromFd thread fd = some k) (hx : (machine.run es).ends k = some x)
    (hn : n ≠ 0) :
    let s := machine.run es
    (((s.sockets.sysRecv thread fd n).1 = 0 ↔ (s.sockets.pool k).rx.size = 0 ∧ ((∀ j, s.ends j ≠ some x.other) ∨
        ∃ j, s.ends j = some x.other ∧ (s.sockets.pool j).writeShutdown = true)) ∧
      ((s.sockets.pollFd thread fd).pollin = true ↔ 0 ≤ (s.sockets.sysRecv thread fd n).1) ∧
      ((s.sockets.pollFd thread fd).pollout = true ↔ (s.sockets.sysSend thread fd [b]).1 = 1)) ↔
    ((s.sockets.pool k).rx.size = 0 →
      (∀ j, s.ends j = some x.other → (s.sockets.pool j).writeShutdown = false) ∧
      ((s.sockets.pool k).peerClosed = true → (s.sockets.pool k).readShutdown = false)) ∧
    if (s.sockets.pool k).listening then
      ((s.sockets.pool k).pendingIndex.isSome = true ↔ s.sockets.Receivable k) ∧ ¬s.sockets.Sendable k
    else (s.sockets.pool k).readShutdown = true →
      (s.sockets.pool k).rx.size = 0 ∧ (s.sockets.pool k).peerClosed = false := by
  intro s
  have h : s.Paired := paired_run es
  have hu := (socketFromFd_eq_some.mp hk).2
  have hclosed := h.peerClosed_iff hu hx
  have htype := h.type k x hx
  obtain ⟨hrecv,hend⟩ := h.sysRecv_fst hk hn
  have hpoll : s.sockets.pollFd thread fd = s.sockets.localPoll k := by rw [pollFd,hk]
  have hsend : (s.sockets.sysSend thread fd [b]).1 = 1 ↔ s.sockets.Sendable k := by
    refine ⟨fun hone => by_contra fun hno => ?_,fun hs => ?_⟩
    · rw [h.sysSend_fails hk hno (cons_ne_nil _ _)] at hone
      exact absurd hone (show ¬(-1 : Int) = 1 by decide)
    · have := h.sysSend_sendable hk hs (cons_ne_nil b [])
      rw [length_singleton] at this
      omega
  have hout : (s.sockets.pool k).peerIndex.any (fun j => (s.sockets.pool j).inUse &&
      !(s.sockets.pool j).readShutdown && (s.sockets.pool j).rx.size < bufferSize) = true ∧
        (s.sockets.pool k).writeShutdown = false ↔ s.sockets.Sendable k := by
    have hpeer : ∀ j, (s.sockets.pool k).peerIndex = some j → (s.sockets.pool j).inUse = true :=
      fun j hj => (h.sound.peer k j hu hj).1
    simp only [Option.any_eq_true,Sendable]
    grind
  rw [hrecv,hend,hsend,hpoll,localPoll]
  by_cases hl : (s.sockets.pool k).listening = true
  · rw [if_pos hl,if_pos hl]
    simp only [Receivable,htype,true_and]
    grind
  · rw [if_neg hl,if_neg hl]
    simp only [Receivable,htype,true_and]
    grind

theorem stream_unready :
    let s := (machine.run [.socketpair 0 1 (some 3) (some 4),.shutdown 0 4 1]).sockets
    let s' := (machine.run [.socketpair 0 1 (some 3) (some 4),.send 0 4 [7],.shutdown 0 3 0]).sockets
    let s'' := (machine.run [.socketpair 0 1 (some 3) (some 4),
      .bind 0 3 (some (sockaddrUn [0x61])) 3,.listen 0 3]).sockets
    ((s.pool 0).rx.size = 0 ∧ (s.pool 0).peerIndex = some 1 ∧ (s.pool 1).writeShutdown = true ∧
      (s.sysRecv 0 3 1).1 = -1) ∧
    ((s'.pollFd 0 3).pollin = true ∧ (s'.sysRecv 0 3 1).1 = -1) ∧
    (s''.pollFd 0 3).pollout = false ∧ (s''.sysSend 0 3 [7]).1 = 1 := by
  decide +kernel

theorem stream_readiness_closed :
    ((machine.run [.socketpair 0 1 (some 3) (some 4),.close 0 4]).sockets.sysRecv 0 3 1).1 = 0 :=
  ((stream_readiness [.socketpair 0 1 (some 3) (some 4),.close 0 4] 0 3 1 0 0 (0,0,true) (by decide +kernel)
    (by decide +kernel) (by decide)).mpr ⟨by decide +kernel,by rw [if_neg (by decide +kernel)]; decide +kernel⟩).1.mpr
    ⟨by decide +kernel,Or.inl (by decide +kernel)⟩

end Streams

/-!
`read` and `write` on AF_UNIX sockets, which go through descriptors and nodes of the VFS.
-/

inductive FileType where
  | regular
  | directory
  | charDevice
  | blockDevice
  | socket
  | epoll
  deriving DecidableEq

def localNodeType : FileType := .charDevice

def allocFdFlags (type : FileType) : Nat := if type = .socket then 2 else 0

def accessMode : Nat := 3

def longMax : Nat := 0x7FFFFFFFFFFFFFFF

def sizeMax : Nat := 0xFFFFFFFFFFFFFFFF

namespace Local

def localRead (s : Local) (i : Slot) (n : Nat) : Int × List UInt8 × Local :=
  if !(s.pool i).inUse || (s.pool i).type ≠ sockStream || (s.pool i).readShutdown then (0,[],s)
  else if (s.pool i).rx.size = 0 then (0,[],s)
  else
    let (data,rx) := (s.pool i).rx.read n
    (data.length,data,s.setSocket i fun x => { x with rx := rx })

def localWrite (s : Local) (i : Slot) (data : List UInt8) : Int × Local :=
  if !(s.pool i).inUse then (0,s)
  else
    match s.receiver i with
    | none => (0,s)
    | some j =>
      let (written,rx) := (s.pool j).rx.write data
      (written,s.setSocket j fun x => { x with rx := rx })

def sysRead (s : Local) (thread fd n offset : Nat) : Int × List UInt8 × Local :=
  match s.getFdNode thread fd with
  | none => (-9,[],s)
  | some d =>
    let access := allocFdFlags localNodeType &&& accessMode
    if access ≠ 0 ∧ access ≠ 2 then (-9,[],s)
    else if localNodeType = .directory then (-21,[],s)
    else if n = 0 then (0,[],s)
    else if n > longMax then (-75,[],s)
    else
      let (bytesRead,data,s) := s.localRead d.slot n
      if bytesRead > 0 ∧ bytesRead > n then (-5,data,s)
      else if bytesRead > 0 ∧ bytesRead > sizeMax - offset then (-75,data,s)
      else (bytesRead,data,s)

def sysWrite (s : Local) (thread fd : Nat) (data : List UInt8) (offset : Nat) : Int × Local :=
  match s.getFdNode thread fd with
  | none => (-9,s)
  | some d =>
    let access := allocFdFlags localNodeType &&& accessMode
    if access ≠ 1 ∧ access ≠ 2 then (-9,s)
    else if localNodeType = .directory then (-21,s)
    else if data.length = 0 then (0,s)
    else if data.length > longMax then (-75,s)
    else if data.length > sizeMax - offset then (-75,s)
    else
      let (bytesWritten,s) := s.localWrite d.slot data
      if bytesWritten > 0 ∧ bytesWritten > data.length then (-5,s) else (bytesWritten,s)

theorem sysWrite_fails (s : Local) (thread fd : Nat) (data : List UInt8) (offset : Nat) :
    s.sysWrite thread fd data offset = (-9,s) := by
  unfold sysWrite
  cases s.getFdNode thread fd <;> rfl

theorem sysRead_eq {s : Local} {thread fd n offset : Nat} {d : Descriptor}
    (hd : s.getFdNode thread fd = some d) (hn : n ≠ 0) : s.sysRead thread fd n offset =
      let r := s.localRead d.slot n
      if n > longMax then (-75,[],s) else if r.1 > 0 ∧ r.1 > n then (-5,r.2)
      else if r.1 > 0 ∧ r.1 > sizeMax - offset then (-75,r.2) else r := by
  have haccess : ¬(allocFdFlags localNodeType &&& accessMode ≠ 0 ∧
      allocFdFlags localNodeType &&& accessMode ≠ 2) := by
    decide
  simp only [sysRead,hd,if_neg haccess,if_neg (show ¬localNodeType = .directory by decide),if_neg hn]

section
variable {s : Local} {thread fd n : Nat} {i : Slot}

theorem recv_fails (hi : s.socketFromFd thread fd = some i) (hn : n ≠ 0) (hno : ¬s.Receivable i) :
    s.sysRecv thread fd n = (-1,[],s) ∧ s.localRead i n = (0,[],s) := by
  simp only [sysRecv,localRead,hi,Option.filter_some]
  simp only [Receivable] at hno
  grind

theorem recv_receivable (hi : s.socketFromFd thread fd = some i) (hn : n ≠ 0) (hr : s.Receivable i)
    (hring : (s.pool i).rx.Ok) :
    (s.sysRecv thread fd n).1 = (min n (s.pool i).rx.size : Nat) ∧ s.localRead i n = s.sysRecv thread fd n := by
  have hlen := (hring.read n).2.1
  have hu := (socketFromFd_eq_some.mp hi).2
  obtain ⟨htype,hshut,hready⟩ := hr
  simp only [sysRecv,localRead,hi,Option.filter_some]
  grind

end

/-- The same count or a failure in both, the same bytes and the same sockets afterwards. -/
def Agree {α : Type} (r r' : Int × α) : Prop := (r.1 = r'.1 ∨ r.1 < 0 ∧ r'.1 < 0) ∧ r.2 = r'.2

theorem not_agree {α : Type} {r r' : Int × α} (h : r.1 < 0) (h' : 0 ≤ r'.1) : ¬Agree r r' := by
  rintro ⟨heq | hneg,_⟩ <;> omega

/-- `write` agrees with `send` exactly where nothing can be sent. `read` agrees with `recv` exactly where something
can be received that the offset has room for, and for a size beyond `LONG_MAX` where nothing can. -/
theorem read_write_agree (es : List Event) (thread fd : Nat) (i : Slot)
    (hi : (Streams.machine.run es).sockets.socketFromFd thread fd = some i) :
    let s := (Streams.machine.run es).sockets
    (∀ data offset, data ≠ [] →
      (Agree (s.sysWrite thread fd data offset) (s.sysSend thread fd data) ↔ ¬s.Sendable i)) ∧
    ∀ n offset, n ≠ 0 → (Agree (s.sysRead thread fd n offset) (s.sysRecv thread fd n) ↔
      if longMax < n then ¬s.Receivable i
      else s.Receivable i ∧ min n (s.pool i).rx.size ≤ sizeMax - offset) := by
  have h := Streams.paired_run es
  have hring := h.ring i
  generalize hs : (Streams.machine.run es).sockets = s at *
  obtain ⟨⟨d,hd,rfl⟩,hu⟩ := socketFromFd_eq_some.mp hi
  refine ⟨fun data offset hdata => ?_,fun n offset hn => ?_⟩
  · rw [sysWrite_fails]
    subst hs
    by_cases hsend : (Streams.machine.run es).sockets.Sendable d.slot
    · have hpos := (h.sysSend_sendable hi hsend hdata).1
      exact iff_of_false (not_agree (show (-9 : Int) < 0 by decide) (Int.le_of_lt hpos)) (not_not.mpr hsend)
    · rw [h.sysSend_fails hi hsend hdata]
      exact iff_of_true ⟨.inr ⟨show (-9 : Int) < 0 by decide,show (-1 : Int) < 0 by decide⟩,rfl⟩ hsend
  rw [sysRead_eq hd hn]
  by_cases hr : s.Receivable d.slot
  · obtain ⟨hrecv,hread⟩ := recv_receivable hi hn hr (hring hu)
    have hpos : 0 ≤ (s.sysRecv thread fd n).1 := by
      rw [hrecv]
      exact Int.natCast_nonneg _
    simp only [hread,hrecv,hr,true_and]
    by_cases hlong : n > longMax
    · rw [if_pos hlong,if_pos hlong]
      exact iff_of_false (not_agree (show (-75 : Int) < 0 by decide) hpos) (not_not.mpr trivial)
    rw [if_neg hlong,if_neg hlong,if_neg (by omega)]
    split
    · exact iff_of_false (not_agree (show (-75 : Int) < 0 by decide) hpos) (by omega)
    · exact iff_of_true ⟨.inl rfl,rfl⟩ (by omega)
  · obtain ⟨hrecv,hread⟩ := recv_fails hi hn hr
    simp only [hread,hrecv,hr,false_and]
    by_cases hlong : n > longMax
    · rw [if_pos hlong,if_pos hlong]
      exact iff_of_true ⟨.inr ⟨show (-75 : Int) < 0 by decide,show (-1 : Int) < 0 by decide⟩,rfl⟩ not_false
    · simp [hlong,Agree]

theorem read_write_differ :
    let s := (Streams.machine.run [.socketpair 0 1 (some 3) (some 4)]).sockets
    (s.sysSend 0 3 [7]).1 = 1 ∧ (s.sysWrite 0 3 [7] 0).1 = -9 ∧
    (s.sysRecv 0 3 1).1 = -1 ∧ (s.sysRead 0 3 1 0).1 = 0 := by
  decide +kernel

theorem read_write_agree_byte :
    let s := (Streams.machine.run [.socketpair 0 1 (some 3) (some 4),.send 0 4 [7]]).sockets
    Agree (s.sysRead 0 3 1 0) (s.sysRecv 0 3 1) :=
  ((read_write_agree [.socketpair 0 1 (some 3) (some 4),.send 0 4 [7]] 0 3 0 (by decide +kernel)).2 1 0 (by decide)).mpr
    (by unfold Receivable; decide +kernel)

end Local
end Rucux.Ipc
