import Rucux.Ipc.LocalSlots
import Mathlib.Data.List.TakeWhile

/-!
Who listens on an address. A socket gets its address from `bind`, or from the listener it was connected to.
-/

namespace Rucux.Ipc
open Lib Local List

/-- The sockets, and which of them were bound by a `bind` of their own. -/
structure Naming where
  sockets : Local
  bound : Slot → Bool

namespace Naming

def binds (s : Naming) : Event → Slot → Bool
  | .bind thread fd addr addrlen, k =>
    (s.sockets.sysBind thread fd addr addrlen).1 = 0 && s.sockets.socketFromFd thread fd = some k
  | _, _ => false

def step (s : Naming) (e : Event) : Naming :=
  ⟨s.sockets.step e,fun k => ((s.sockets.step e).pool k).inUse && (s.bound k || s.binds e k)⟩

def machine : Machine Naming Event := ⟨⟨Local.machine.initial,fun _ => false⟩,step⟩

def listened (s : Naming) : Event → Option Slot
  | .listen thread fd => s.sockets.socketFromFd thread fd
  | _ => none

def ListensBound (s : Naming) (e : Event) : Prop := ∀ k, s.listened e = some k → s.bound k = true

instance (s : Naming) (e : Event) : Decidable (s.ListensBound e) :=
  inferInstanceAs (Decidable (∀ k, s.listened e = some k → s.bound k = true))

structure Sole (s : Naming) : Prop where
  sound : s.sockets.Sound
  used : ∀ k, s.bound k = true → (s.sockets.pool k).inUse = true
  single : ∀ j k, s.bound j = true → s.bound k = true →
    (s.sockets.pool j).address = (s.sockets.pool k).address → j = k
  listening : ∀ k, (s.sockets.pool k).inUse = true → (s.sockets.pool k).listening = true → s.bound k = true

variable {s : Naming} {e : Event} {k : Slot} {q : Pool}

/-- But for `bind`, an event leaves the address of a socket that was there, and makes only listen whom it says. -/
theorem turn_name (h : s.sockets.Turn q k e) (hb : ∀ thread fd addr addrlen, e ≠ .bind thread fd addr addrlen) :
    (s.sockets.pool k).inUse = false ∧ (q k).listening = false ∨
    (s.sockets.pool k).inUse = true ∧ (q k).address = (s.sockets.pool k).address ∧
      ((q k).listening = (s.sockets.pool k).listening ∨ s.listened e = some k) := by
  cases h with
  | kept h =>
    obtain ⟨hu,_,_,h | ⟨_,_,_,h⟩⟩ := h <;> rw [h] <;> exact Or.inr ⟨hu,rfl,Or.inl rfl⟩
  | fresh h =>
    obtain ⟨hu,_,_,_,_,h,_⟩ := h
    rw [h]
    exact Or.inl ⟨hu,rfl⟩
  | bound a => exact absurd rfl (hb _ _ _ _)
  | listens hk h =>
    rw [h]
    exact Or.inr ⟨(socketFromFd_eq_some.mp hk).2,rfl,Or.inr hk⟩
  | filled hc hr h =>
    rw [h]
    exact Or.inr ⟨(receiver_eq_some.mp hr).2.2.2.1,rfl,Or.inl rfl⟩
  | dialled v c hk _ _ h | shut r w hk h | drained hk h =>
    rw [h]
    exact Or.inr ⟨(socketFromFd_eq_some.mp hk).2,rfl,Or.inl rfl⟩

theorem Sole.other (h : s.Sole) (hb : ∀ thread fd addr addrlen, e ≠ .bind thread fd addr addrlen)
    (hok : s.ListensBound e) : (s.step e).Sole := by
  have hbound : ∀ k, (s.step e).bound k = true → ((s.step e).sockets.pool k).inUse = true ∧ s.bound k = true ∧
      ((s.step e).sockets.pool k).address = (s.sockets.pool k).address := by
    intro k hk
    have hbinds : s.binds e k = false := by
      cases e with
      | bind thread fd addr addrlen => exact absurd rfl (hb _ _ _ _)
      | _ => rfl
    simp only [step,hbinds,Bool.or_false,Bool.and_eq_true] at hk ⊢
    cases turn_name (step_turn h.sound e hk.1) hb with
    | inl hfree => exact absurd (h.used k hk.2) (by simp [hfree.1])
    | inr hsame => exact ⟨hk.1,hk.2,hsame.2.1⟩
  refine ⟨sound_step h.sound e,fun k hk => (hbound k hk).1,fun j k hj hk he => ?_,fun k hu hl => ?_⟩
  · obtain ⟨_,hj,haj⟩ := hbound j hj
    obtain ⟨_,hk,hak⟩ := hbound k hk
    exact h.single j k hj hk (by rw [← haj,← hak,he])
  have hbk : s.bound k = true := by
    obtain ⟨_,hl'⟩ | ⟨hu',_,hl' | hk⟩ := turn_name (step_turn h.sound e hu) hb
    · exact absurd hl (by simp [step,hl'])
    · exact h.listening k hu' (hl' ▸ hl)
    · exact hok k hk
  simp only [step,hbk,Bool.true_or,Bool.and_true]
  exact hu

theorem Sole.bind (h : s.Sole) (thread fd : Nat) (addr : Option (Nat → UInt8)) (addrlen : Nat) :
    (s.step (.bind thread fd addr addrlen)).Sole := by
  obtain he | ⟨i,a,hi,_,hnone,hfree,he⟩ := sysBind_cases s.sockets thread fd addr addrlen
  · have hsame : s.step (.bind thread fd addr addrlen) = s := by
      simp only [step,Local.step,binds,he]
      refine congrArg (Naming.mk s.sockets) (funext fun k => ?_)
      have := h.used k
      grind
    rwa [hsame]
  have hother : ∀ k, (s.sockets.pool k).inUse = true → (s.sockets.pool k).address ≠ some a := by
    intro k hu ha
    have hany : s.sockets.pool.addressInUse a = true := any_eq_true.mpr ⟨k,mem_finRange k,by simp [hu,ha]⟩
    exact Bool.false_ne_true (hfree.symm.trans hany)
  have hu := (socketFromFd_eq_some.mp hi).2
  have hsound := sound_step h.sound (.bind thread fd addr addrlen)
  have hpool : ∀ k, ((s.step (.bind thread fd addr addrlen)).sockets.pool k) =
      { s.sockets.pool k with address := if k = i then some a else (s.sockets.pool k).address } := by
    intro k
    simp only [step,Local.step,he,setSocket_pool]
    split <;> rfl
  have hbound : ∀ k, (s.step (.bind thread fd addr addrlen)).bound k = (s.bound k || k = i) := by
    intro k
    have := h.used k
    simp only [step,Local.step,binds,he,hi,setSocket_pool]
    grind
  obtain ⟨_,h2,h3,h4⟩ := h
  constructor
  · exact hsound
  · grind
  · grind
  · grind

theorem Sole.step (h : s.Sole) (e : Event) (hok : s.ListensBound e) : (s.step e).Sole := by
  cases e with
  | bind thread fd addr addrlen => exact h.bind thread fd addr addrlen
  | _ => exact h.other (by intro _ _ _ _ hne; cases hne) hok

theorem sole_run (es : List Event) (hok : machine.Along ListensBound machine.initial es) : (machine.run es).Sole := by
  refine machine.runFrom_invariant ListensBound (fun s e h => Sole.step h e) ⟨sound_run [],?_,?_,?_⟩ es hok
  all_goals simp [machine,Local.machine]

/-- Where only sockets that were bound themselves are made to listen, nobody but the one that is found
listens on its address. And a name can be bound exactly when no socket that was bound to it itself is open,
but where sockets that only inherited it are all that is left. -/
theorem listener_unique (es : List Event) (hok : machine.Along ListensBound machine.initial es) :
    let s := machine.run es
    (∀ j k, (s.sockets.pool j).inUse = true → (s.sockets.pool k).inUse = true →
      (s.sockets.pool j).listening = true → (s.sockets.pool k).listening = true →
      (s.sockets.pool j).address = (s.sockets.pool k).address → j = k) ∧
    (∀ a type k, s.sockets.pool.findListener a type = some k ↔ (s.sockets.pool k).inUse = true ∧
      (s.sockets.pool k).listening = true ∧ (s.sockets.pool k).type = type ∧ (s.sockets.pool k).address = some a) ∧
    ∀ thread fd addr addrlen i a, s.sockets.socketFromFd thread fd = some i → (s.sockets.pool i).address = none →
      translateAddressIn addr addrlen = some a → validAddress a = true →
      (((s.sockets.sysBind thread fd addr addrlen).1 = 0 ↔
          ¬∃ j, s.bound j = true ∧ (s.sockets.pool j).address = some a) ↔
        (∀ j, (s.sockets.pool j).inUse = true → (s.sockets.pool j).address = some a → s.bound j = true) ∨
          ∃ j, s.bound j = true ∧ (s.sockets.pool j).address = some a) := by
  intro s
  have h : s.Sole := sole_run es hok
  have hone : ∀ j k, (s.sockets.pool j).inUse = true → (s.sockets.pool k).inUse = true →
      (s.sockets.pool j).listening = true → (s.sockets.pool k).listening = true →
      (s.sockets.pool j).address = (s.sockets.pool k).address → j = k :=
    fun j k hj hk hlj hlk he => h.single j k (h.listening j hj hlj) (h.listening k hk hlk) he
  refine ⟨hone,fun a type k => ⟨fun hk => ?_,fun hk => ?_⟩,fun thread fd addr addrlen i a hi hnone ha hvalid => ?_⟩
  · have := find?_some hk
    grind
  · have hfind : ((s.sockets.pool.findListener a type).isSome) = true := by
      rw [Pool.findListener,find?_isSome]
      exact ⟨k,mem_finRange k,by simp [hk]⟩
    obtain ⟨l,hl⟩ := Option.isSome_iff_exists.mp hfind
    have hl' := find?_some hl
    rw [hl,hone l k (by grind) hk.1 (by grind) hk.2.1 (by grind)]
  have hused : s.sockets.pool.addressInUse a = true ↔
      ∃ j, (s.sockets.pool j).inUse = true ∧ (s.sockets.pool j).address = some a := by
    simp [Pool.addressInUse]
  have hbind : (s.sockets.sysBind thread fd addr addrlen).1 = 0 ↔
      ¬∃ j, (s.sockets.pool j).inUse = true ∧ (s.sockets.pool j).address = some a := by
    rw [← hused,sysBind,hi,ha]
    cases hc : s.sockets.pool.addressInUse a <;> simp [hvalid,hnone,hc]
  have hown := h.used
  rw [hbind]
  grind

def inherited : List Event :=
  let addr := some (sockaddrUn [0x61])
  [.socket 0 1 0 (some 3),.bind 0 3 addr 3,.listen 0 3,.socket 0 1 0 (some 4),.connect 0 4 addr 3,
    .accept 0 3 (some 5),.listen 0 5]

theorem listener_twice :
    let s := (machine.run inherited).sockets
    let s' := machine.run (inherited ++ [.close 0 3,.socket 0 1 0 (some 6)])
    ((s.pool 0).inUse && (s.pool 0).listening && (s.pool 2).inUse && (s.pool 2).listening) = true ∧
    (s.pool 0).address = (s.pool 2).address ∧
    (s'.sockets.sysBind 0 6 (some (sockaddrUn [0x61])) 3).1 = -1 ∧ ∀ j, s'.bound j = false := by
  decide +kernel

theorem listener_unique_first :
    (machine.run (inherited.take 4)).sockets.pool.findListener ⟨.filesystem,[0x61]⟩ 1 = some 0 :=
  ((listener_unique (inherited.take 4) (by decide +kernel)).2.1 ⟨.filesystem,[0x61]⟩ 1 0).mpr (by decide +kernel)

end Naming

/-!
The names of AF_UNIX sockets: what `getsockname` says of a name that was bound.
-/

open Option
variable {a : Address} {addr : Option (Nat → UInt8)} {addrlen n : Nat} {bytes : Nat → UInt8}

/-- A name of the filesystem is not empty and has no zero in it; an abstract one has room for the zero
before it. -/
def Address.Plain (a : Address) : Prop :=
  match a.kind with
  | .filesystem => a.path ≠ [] ∧ ∀ x ∈ a.path, x ≠ 0
  | .abstract => a.path.length < pathMax

theorem translateAddressIn_plain (h : translateAddressIn addr addrlen = some a) : a.Plain := by
  cases addr with
  | none => cases h
  | some un =>
    simp only [translateAddressIn] at h
    split at h
    · cases h
    split at h
    · rw [← some.inj h]
      show ((_ : List UInt8).drop 1).length < pathMax
      rw [length_drop,length_map,length_range]
      simp only [pathMax]
      omega
    split at h
    · cases h
    rename_i hne
    rw [← some.inj h]
    exact ⟨hne,fun x hx => by simpa using mem_takeWhile_imp hx⟩

theorem translateAddressIn_sockaddrUn (xs : List UInt8) (h : xs.length ≤ pathMax) :
    translateAddressIn (some (sockaddrUn xs)) (2 + xs.length) =
      if xs.head? = some 0 then some ⟨.abstract,xs.drop 1⟩
      else if xs.takeWhile (· ≠ 0) = [] then none else some ⟨.filesystem,xs.takeWhile (· ≠ 0)⟩ := by
  have hpath : ((range (min (2 + xs.length - 2) pathMax)).map fun i => sockaddrUn xs (2 + i)) = xs := by
    rw [Nat.add_sub_cancel_left,Nat.min_eq_left h]
    apply ext_getElem?
    intro i
    by_cases hi : i < xs.length <;> simp [hi,sockaddrUn,show 2 + i ≠ 1 by omega]
  have hlen : ¬2 + xs.length < 2 := by omega
  have hfamily : ¬(sockaddrUn xs 0 ≠ 1 ∨ sockaddrUn xs 1 ≠ 0) := by simp [sockaddrUn]
  simp only [translateAddressIn,hpath]
  rw [if_neg (not_or.mpr ⟨hlen,hfamily⟩)]

theorem translate_out_in (h : translateAddressOut (some a) = some (n,bytes)) (ha : a.Plain) :
    translateAddressIn (some bytes) n = some a := by
  obtain ⟨kind,path⟩ := a
  simp only [translateAddressOut] at h
  split at h
  · cases h
  rename_i hlen
  obtain ⟨rfl,rfl⟩ := Prod.mk.inj (some.inj h)
  have hle : path.length + 1 ≤ pathMax := Nat.le_of_not_lt hlen
  cases kind with
  | abstract =>
    have hin := translateAddressIn_sockaddrUn (0 :: path) hle
    rwa [if_pos (by simp)] at hin
  | filesystem =>
    obtain ⟨hne,hnz⟩ := ha
    have hin := translateAddressIn_sockaddrUn (path ++ [0]) (by simpa using hle)
    have htake : (path ++ [0]).takeWhile (· ≠ 0) = path := by
      rw [takeWhile_append_of_pos (by simpa using hnz)]
      simp
    have hhead : (path ++ [0]).head? ≠ some 0 := by
      cases path with
      | nil => exact absurd rfl hne
      | cons x xs => simpa using hnz x
    rwa [if_neg hhead,htake,if_neg hne,length_append,length_singleton] at hin

namespace Local

def sysGetsockname (s : Local) (thread fd : Nat) : Option (Nat × (Nat → UInt8)) :=
  (s.socketFromFd thread fd).bind fun i => translateAddressOut (s.pool i).address

/-- A name that was bound comes back from `sys_getsockname` exactly if, as one of the filesystem, it leaves room for
a terminator. -/
theorem bound_name_round_trip (s : Local) (thread fd : Nat) (addr : Option (Nat → UInt8)) (addrlen : Nat)
    (hok : (s.sysBind thread fd addr addrlen).1 = 0) :
    (∃ a n bytes, translateAddressIn addr addrlen = some a ∧
      (s.sysBind thread fd addr addrlen).2.sysGetsockname thread fd = some (n,bytes) ∧
      translateAddressIn (some bytes) n = some a) ↔
    ∀ a, translateAddressIn addr addrlen = some a → a.kind = .filesystem → a.path.length < pathMax := by
  obtain he | ⟨i,a,hi,ha,_,_,he⟩ := sysBind_cases s thread fd addr addrlen
  · rw [he] at hok
    cases hok
  have hi' : (s.setSocket i fun x => { x with address := some a }).socketFromFd thread fd = some i := by
    obtain ⟨hd,hin⟩ := socketFromFd_eq_some.mp hi
    exact socketFromFd_eq_some.mpr ⟨hd,by simpa using hin⟩
  have hname : (s.sysBind thread fd addr addrlen).2.sysGetsockname thread fd = translateAddressOut (some a) := by
    rw [he,sysGetsockname,hi',bind_some,setSocket_pool,if_pos rfl]
  have hplain := translateAddressIn_plain ha
  rw [hname]
  constructor
  · rintro ⟨_,n,bytes,-,hout,-⟩ b hb hk
    obtain rfl := some.inj (ha.symm.trans hb)
    by_contra hlong
    rw [translateAddressOut,if_pos (Nat.lt_succ_of_le (Nat.le_of_not_lt hlong))] at hout
    cases hout
  · intro hroom
    have hlen : a.path.length < pathMax := by
      cases hk : a.kind with
      | filesystem => exact hroom a ha hk
      | abstract => rwa [Address.Plain,hk] at hplain
    obtain ⟨r,hr⟩ : ∃ r, translateAddressOut (some a) = some r := by
      rw [translateAddressOut,if_neg (Nat.not_lt.mpr hlen)]
      exact ⟨_,rfl⟩
    exact ⟨a,r.1,r.2,ha,hr,translate_out_in hr hplain⟩

def longName (i : Nat) : UInt8 := if i = 0 then 1 else if i = 1 then 0 else 0x61

theorem bound_name_lost : ((machine.run [.socket 0 1 0 (some 3)]).sysBind 0 3 (some longName) 110).1 = 0 ∧
    (((machine.run [.socket 0 1 0 (some 3)]).sysBind 0 3 (some longName) 110).2.sysGetsockname 0 3).isNone = true := by
  decide +kernel

theorem bound_name_round_trip_short : ∃ a n bytes, translateAddressIn (some longName) 5 = some a ∧
      ((machine.run [.socket 0 1 0 (some 3)]).sysBind 0 3 (some longName) 5).2.sysGetsockname 0 3 = some (n,bytes) ∧
      translateAddressIn (some bytes) n = some a :=
  (bound_name_round_trip _ 0 3 (some longName) 5 (by decide +kernel)).mpr fun a ha _ => by
    have hval : (translateAddressIn (some longName) 5).all (fun a => decide (a.path.length < pathMax)) = true := by
      decide +kernel
    rw [ha] at hval
    simpa using hval

end Local
end Rucux.Ipc
