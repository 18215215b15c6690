import Rucux.Lib.Blit
import Rucux.Memory.Paging

/-! Copies between the kernel and user memory. Addresses are translated page by page by `get_user_phys`, of which
there is one for each architecture; the copies only depend on it being the same translation all over a page. The
mapping lock is held. A sum of addresses that does not fit has no value here. -/

namespace Rucux.Memory
open Lib List UserLayout BitVec

theorem toNat_frame_or (entry mask : BitVec 64) {shift x : Nat} (hs : shift ≤ 64) (hx : x < 2^shift) :
    (entry &&& mask &&& ~~~(BitVec.ofNat 64 (2^shift - 1)) ||| BitVec.ofNat 64 x).toNat =
      (entry &&& mask &&& ~~~(BitVec.ofNat 64 (2^shift - 1))).toNat + x := by
  have hand : entry &&& mask &&& ~~~(BitVec.ofNat 64 (2^shift - 1)) &&& BitVec.ofNat 64 x = 0 := by
    apply eq_of_getLsbD_eq
    intro i hi
    simp only [getLsbD_and,getLsbD_not,getLsbD_ofNat,Nat.testBit_two_pow_sub_one]
    by_cases hlow : i < shift
    · simp [hi,hlow]
    have hzero : x.testBit i = false :=
      Nat.testBit_lt_two_pow (Nat.lt_of_lt_of_le hx (Nat.pow_le_pow_right (by decide) (by omega)))
    simp [hzero]
  have hx64 : x < 2^64 := Nat.lt_of_lt_of_le hx (Nat.pow_le_pow_right (by decide) hs)
  rw [← add_eq_or_of_and_eq_zero _ _ hand,toNat_add_of_and_eq_zero hand,toNat_ofNat,
    Nat.mod_eq_of_lt hx64]

section
variable {v j shift : Nat} (hj : v % 4096 + j < 4096) (hs : 12 ≤ shift)
include hj hs

theorem index_add : (v + j) / 2^shift = v / 2^shift := by
  obtain ⟨k,rfl⟩ := Nat.exists_eq_add_of_le hs
  have hpage : (v + j) / 4096 = v / 4096 := by omega
  rw [Nat.pow_add,← Nat.div_div_eq_div_mul,← Nat.div_div_eq_div_mul,hpage]

theorem offset_add : (v + j) % 2^shift = v % 2^shift + j ∧ v % 2^shift + j < 2^shift := by
  have h1 := Nat.div_add_mod (v + j) (2^shift)
  have h2 := Nat.div_add_mod v (2^shift)
  rw [index_add hj hs] at h1
  omega

end

theorem Paging.userWalk_add (s : Paging) {v j : Nat} (hj : v % 4096 + j < 4096) (required : BitVec 64)
    (table : BitVec 64) (shifts : List Nat) (hs : ∀ shift ∈ shifts, 12 ≤ shift ∧ shift ≤ 64)
    (hne : s.userWalk v required table shifts ≠ 0) :
    (s.userWalk (v + j) required table shifts).toNat = (s.userWalk v required table shifts).toNat + j := by
  induction shifts generalizing table with
  | nil => exact absurd rfl hne
  | cons shift shifts ih =>
    obtain ⟨⟨hshift,hwidth⟩,hshifts⟩ := forall_mem_cons.mp hs
    obtain ⟨hoff,hlt⟩ := offset_add hj hshift
    simp only [userWalk,index_add hj hshift] at hne ⊢
    split_ifs at hne ⊢
    · exact absurd rfl hne
    · rw [hoff,toNat_frame_or _ _ hwidth hlt,toNat_frame_or _ _ hwidth (by omega),Nat.add_assoc]
    · exact ih _ hshifts hne

namespace Aarch64

def addressMask : BitVec 64 := 0x0000FFFFFFFFF000

/-- The loop of `get_user_phys`, over the shifts that are left. -/
def userWalk (tables : BitVec 64 → Nat → BitVec 64) (virt : Nat) (write : Bool) : BitVec 64 → List Nat → BitVec 64
  | _,[] => 0
  | table,shift :: shifts =>
    let entry := tables table (virt / 2^shift % 512)
    if entry &&& 1 = 0 then 0
    else if shift = 12 || entry &&& 2 = 0 then
      if entry &&& 1 <<< 6 = 0 || write && entry &&& 1 <<< 7 ≠ 0 then 0
      else if entry >>> 2 &&& 7 ≠ 1 then 0
      else entry &&& addressMask &&& ~~~(BitVec.ofNat 64 (2^shift - 1)) ||| BitVec.ofNat 64 (virt % 2^shift)
    else if entry &&& 1 <<< 61 ≠ 0 || write && entry &&& 1 <<< 62 ≠ 0 then 0
    else userWalk tables virt write (entry &&& addressMask) shifts

def getUserPhys (tables : BitVec 64 → Nat → BitVec 64) (root : BitVec 64) (virt : Nat) (write : Bool) : BitVec 64 :=
  if !aarch64.userRange virt 1 then 0 else userWalk tables virt write root [30,21,12]

theorem userWalk_add (tables : BitVec 64 → Nat → BitVec 64) {v j : Nat} (hj : v % 4096 + j < 4096) (write : Bool)
    (table : BitVec 64) (shifts : List Nat) (hs : ∀ shift ∈ shifts, 12 ≤ shift ∧ shift ≤ 64)
    (hne : userWalk tables v write table shifts ≠ 0) :
    (userWalk tables (v + j) write table shifts).toNat = (userWalk tables v write table shifts).toNat + j := by
  induction shifts generalizing table with
  | nil => exact absurd rfl hne
  | cons shift shifts ih =>
    obtain ⟨⟨hshift,hwidth⟩,hshifts⟩ := forall_mem_cons.mp hs
    obtain ⟨hoff,hlt⟩ := offset_add hj hshift
    simp only [userWalk,index_add hj hshift,hoff] at hne ⊢
    split_ifs at hne ⊢
    case pos | pos | pos | pos => exact absurd rfl hne
    · rw [toNat_frame_or _ _ hwidth hlt,toNat_frame_or _ _ hwidth (by omega),Nat.add_assoc]
    · exact ih _ hshifts hne

end Aarch64

/-- The active page table as `get_user_phys` shows it: 0 or the physical address of a user byte, in
order all over a page. -/
structure UserPages where
  layout : UserLayout
  getUserPhys : Nat → Bool → BitVec 64
  window : ∀ v write, getUserPhys v write ≠ 0 → layout.userRange v 1 = true
  page : ∀ v write j, v % pageSize + j < pageSize → getUserPhys v write ≠ 0 →
    (getUserPhys (v + j) write).toNat = (getUserPhys v write).toNat + j

namespace UserPages

theorem userRange_add {L : UserLayout} {v j : Nat} (hend : L.userEnd % 4096 = 0) (hv : L.userRange v 1 = true)
    (hj : v % 4096 + j < 4096) : L.userRange (v + j) 1 = true := by
  simp only [userRange,Bool.and_eq_true,decide_eq_true_eq] at hv ⊢
  omega

def amd64 (s : Paging) (pml4 : BitVec 64) : UserPages where
  layout := .amd64
  getUserPhys := s.getUserPhys pml4
  window v write h := by
    unfold Paging.getUserPhys at h
    split at h
    · exact absurd rfl h
    rename_i hv
    simpa using hv
  page v write j hj h := by
    unfold Paging.getUserPhys at h ⊢
    split at h
    · exact absurd rfl h
    rename_i hv
    have hv' : UserLayout.amd64.userRange v 1 = true := by simpa using hv
    rw [if_neg (by simp [userRange_add (by decide) hv' hj]),if_neg hv]
    exact s.userWalk_add hj _ _ _ (by decide) h

def aarch64 (tables : BitVec 64 → Nat → BitVec 64) (root : BitVec 64) : UserPages where
  layout := .aarch64
  getUserPhys := Aarch64.getUserPhys tables root
  window v write h := by
    unfold Aarch64.getUserPhys at h
    split at h
    · exact absurd rfl h
    rename_i hv
    simpa using hv
  page v write j hj h := by
    unfold Aarch64.getUserPhys at h ⊢
    split at h
    · exact absurd rfl h
    rename_i hv
    have hv' : UserLayout.aarch64.userRange v 1 = true := by simpa using hv
    rw [if_neg (by simp [userRange_add (by decide) hv' hj]),if_neg hv]
    exact Aarch64.userWalk_add tables hj _ _ _ (by decide) h

def sum (a b : Nat) : Option Nat := if a + b < 2^64 then some (a + b) else none

def pieceOf (address size : Nat) : Nat :=
  let room := pageSize - address % pageSize
  if size < room then size else room

def accessibleLoop (P : UserPages) (write : Bool) : Nat → Nat → Nat → Option Bool
  | 0, _, _ => some true
  | fuel+1, address, size =>
    if size = 0 then some true
    else if P.getUserPhys address write = 0 then some false
    else
      let count := pieceOf address size
      (sum address count).bind fun address => P.accessibleLoop write fuel address (size - count)

def accessible (P : UserPages) (address size : Nat) (write : Bool) : Option Bool :=
  if size = 0 then some true
  else if !P.layout.userRange address size then some false
  else P.accessibleLoop write size address size

structure Bytes where
  buffer : Nat → UInt8
  frames : BitVec 64 → UInt8

def memcpy (m : Bytes) (phys : BitVec 64) (k count : Nat) (toUser : Bool) : Bytes :=
  if toUser then
    { m with frames := store m.frames (fun j => phys + BitVec.ofNat 64 j) (fun j => m.buffer (k + j)) count }
  else { m with buffer := store m.buffer (fun j => k + j) (fun j => m.frames (phys + BitVec.ofNat 64 j)) count }

def copyLoop (P : UserPages) (toUser : Bool) : Nat → Nat → Nat → Nat → Bytes → Option Bytes
  | 0, _, _, _, m => some m
  | fuel+1, address, k, size, m =>
    if size = 0 then some m
    else
      let phys := P.getUserPhys address toUser
      let count := pieceOf address size
      let m := memcpy m phys k count toUser
      (sum address count).bind fun address => P.copyLoop toUser fuel address (k + count) (size - count) m

def copy (P : UserPages) (address size : Nat) (toUser : Bool) (m : Bytes) : Option (Bool × Bytes) :=
  (P.accessible address size toUser).bind fun ok =>
    if !ok then some (false,m) else (P.copyLoop toUser size address 0 size m).map fun m => (true,m)

def copyFromUser (P : UserPages) (source size : Nat) (m : Bytes) : Option (Bool × Bytes) := P.copy source size false m

def copyToUser (P : UserPages) (dest size : Nat) (m : Bytes) : Option (Bool × Bytes) := P.copy dest size true m

/-- What `copy_user_string` returns, the buffer, and the user addresses that it has read. -/
structure StringCopy where
  result : Int
  buffer : Nat → UInt8
  reads : List Nat

def stringLoop (P : UserPages) (frames : BitVec 64 → UInt8) : Nat → Nat → Nat → StringCopy → Option StringCopy
  | 0, _, _, c => some { c with result := -36 }
  | n+1, i, address, c =>
    if !P.layout.userRange address 1 then some { c with result := -14 }
    else
      let phys := P.getUserPhys address false
      if phys = 0 then some { c with result := -14 }
      else
        let c := { c with buffer := Function.update c.buffer i (frames phys), reads := c.reads ++ [address] }
        if frames phys = 0 then some { c with result := i }
        else (sum address 1).bind fun address => P.stringLoop frames n (i + 1) address c

def copyUserString (P : UserPages) (source capacity : Nat) (m : Bytes) : Option StringCopy :=
  P.stringLoop m.frames capacity 0 source ⟨0,m.buffer,[]⟩

section Results
variable {P : UserPages} {write : Bool} {address size : Nat}

def Accessible (P : UserPages) (write : Bool) (v : Nat) : Prop :=
  P.layout.userRange v 1 = true ∧ P.getUserPhys v write ≠ 0

theorem pieceOf_spec (address : Nat) (hs : size ≠ 0) :
    0 < pieceOf address size ∧ pieceOf address size ≤ size ∧ address % pageSize + pieceOf address size ≤ pageSize := by
  have hmod : address % pageSize < pageSize := Nat.mod_lt _ (by decide)
  unfold pieceOf
  dsimp only
  split <;> omega

theorem sum_of_le (hend : address + size ≤ P.layout.userEnd) {n : Nat} (hn : n ≤ size) :
    sum address n = some (address + n) := by
  have hbound := P.layout.bounded
  rw [sum,if_pos (by omega)]

theorem accessible_piece (h : P.getUserPhys address write ≠ 0) (hs : size ≠ 0) {j : Nat}
    (hj : j < pieceOf address size) :
    P.getUserPhys (address + j) write = P.getUserPhys address write + BitVec.ofNat 64 j ∧
      P.getUserPhys (address + j) write ≠ 0 := by
  have hroom := (pieceOf_spec address hs).2.2
  have hpage := P.page address write j (by omega) h
  have hpos : (P.getUserPhys address write).toNat ≠ 0 := fun h0 => h (eq_of_toNat_eq h0)
  refine ⟨eq_of_toNat_eq ?_,fun h0 => ?_⟩
  · rw [hpage,toNat_add,toNat_ofNat]
    omega
  rw [h0] at hpage
  change 0 = _ at hpage
  omega

theorem forall_piece {p : Nat → Prop} (hp : ∀ j, j < pieceOf address size → p (address + j)) :
    (∀ i, i < size → p (address + i)) ↔
      ∀ i, i < size - pieceOf address size → p (address + pieceOf address size + i) := by
  refine ⟨fun h i hi => ?_,fun h i hi => ?_⟩
  · rw [Nat.add_assoc]
    exact h _ (by omega)
  by_cases hlt : i < pieceOf address size
  · exact hp i hlt
  have hrest := h (i - pieceOf address size) (by omega)
  rwa [show address + pieceOf address size + (i - pieceOf address size) = address + i by omega] at hrest

theorem accessibleLoop_spec (P : UserPages) (write : Bool) (fuel : Nat) (hfuel : size ≤ fuel)
    (hend : address + size ≤ P.layout.userEnd) :
    ∃ ok, P.accessibleLoop write fuel address size = some ok ∧
      (ok = true ↔ ∀ i, i < size → P.getUserPhys (address + i) write ≠ 0) := by
  induction fuel generalizing address size with
  | zero => exact ⟨true,rfl,fun _ i hi => by omega,fun _ => rfl⟩
  | succ fuel ih =>
    rw [accessibleLoop]
    by_cases hs : size = 0
    · rw [if_pos hs]
      exact ⟨true,rfl,fun _ i hi => by omega,fun _ => rfl⟩
    rw [if_neg hs]
    by_cases h : P.getUserPhys address write = 0
    · rw [if_pos h]
      exact ⟨false,rfl,nofun,fun hall => absurd h (hall 0 (by omega))⟩
    obtain ⟨hpos,hle,-⟩ := pieceOf_spec address hs
    rw [if_neg h]
    dsimp only
    rw [sum_of_le hend hle,Option.bind_some,
      forall_piece (p := fun v => P.getUserPhys v write ≠ 0) fun j hj => (accessible_piece h hs hj).2]
    exact ih (by omega) (by omega)

theorem userRange_bytes {L : UserLayout} (hs : size ≠ 0) :
    L.userRange address size = true ↔ ∀ i, i < size → L.userRange (address + i) 1 = true := by
  simp only [userRange,Bool.and_eq_true,decide_eq_true_eq]
  refine ⟨fun h i hi => by omega,fun h => ?_⟩
  have hfirst := h 0 (by omega)
  have hlast := h (size - 1) (by omega)
  omega

theorem accessible_spec (P : UserPages) (address size : Nat) (write : Bool) :
    ∃ ok, P.accessible address size write = some ok ∧
    (ok = true ↔ ∀ i, i < size → P.Accessible write (address + i)) := by
  unfold accessible
  by_cases hs : size = 0
  · rw [if_pos hs]
    exact ⟨true,rfl,fun _ i hi => by omega,fun _ => rfl⟩
  rw [if_neg hs]
  have hbytes : P.layout.userRange address size = true ↔ ∀ i, i < size → P.layout.userRange (address + i) 1 = true :=
    userRange_bytes hs
  cases hr : P.layout.userRange address size with
  | false =>
    refine ⟨false,rfl,nofun,fun hall => ?_⟩
    rw [hbytes.mpr fun i hi => (hall i hi).1] at hr
    cases hr
  | true =>
    have hend : address + size ≤ P.layout.userEnd := by
      simp only [userRange,Bool.and_eq_true,decide_eq_true_eq] at hr
      omega
    obtain ⟨ok,hok,hspec⟩ := P.accessibleLoop_spec write size (le_rfl) hend
    refine ⟨ok,hok,hspec.trans ⟨fun h i hi => ⟨hbytes.mp hr i hi,h i hi⟩,fun h i hi => (h i hi).2⟩⟩

def copied (P : UserPages) (toUser : Bool) (address k size : Nat) (m : Bytes) : Bytes :=
  if toUser then
    { m with frames := store m.frames (fun i => P.getUserPhys (address + i) true) (fun i => m.buffer (k + i)) size }
  else { m with buffer := store m.buffer (fun i => k + i) (fun i => m.frames (P.getUserPhys (address + i) false)) size }

theorem memcpy_eq_copied {m : Bytes} {k : Nat} (h : P.getUserPhys address write ≠ 0) (hs : size ≠ 0) :
    memcpy m (P.getUserPhys address write) k (pieceOf address size) write =
      P.copied write address k (pieceOf address size) m := by
  have hpiece : ∀ j, j < pieceOf address size →
      P.getUserPhys address write + BitVec.ofNat 64 j = P.getUserPhys (address + j) write :=
    fun j hj => (accessible_piece h hs hj).1.symm
  cases write with
  | false =>
    refine congrArg (fun b => (⟨b,m.frames⟩ : Bytes)) (store_congr (fun _ _ => rfl) fun j hj => ?_)
    exact congrArg m.frames (hpiece j hj)
  | true => exact congrArg (fun f => (⟨m.buffer,f⟩ : Bytes)) (store_congr hpiece fun _ _ => rfl)

theorem copied_add {m : Bytes} {k n r : Nat} :
    P.copied write (address + n) (k + n) r (P.copied write address k n m) = P.copied write address k (n + r) m := by
  cases write with
  | false =>
    refine congrArg (fun b => (⟨b,m.frames⟩ : Bytes)) ?_
    rw [← store_add]
    exact store_congr (fun j _ => Nat.add_assoc k n j) fun j _ =>
      congrArg (fun v => m.frames (P.getUserPhys v false)) (Nat.add_assoc address n j)
  | true =>
    refine congrArg (fun f => (⟨m.buffer,f⟩ : Bytes)) ?_
    rw [← store_add]
    exact store_congr (fun j _ => congrArg (fun v => P.getUserPhys v true) (Nat.add_assoc address n j)) fun j _ =>
      congrArg m.buffer (Nat.add_assoc k n j)

theorem copyLoop_spec (fuel : Nat) {k : Nat} {m : Bytes} (hfuel : size ≤ fuel)
    (hend : size = 0 ∨ address + size ≤ P.layout.userEnd)
    (h : ∀ i, i < size → P.getUserPhys (address + i) write ≠ 0) :
    P.copyLoop write fuel address k size m = some (P.copied write address k size m) := by
  have hzero : ∀ address k m, P.copied write address k 0 m = m := fun _ _ _ => by
    unfold copied
    split <;> rfl
  induction fuel generalizing address k size m with
  | zero =>
    obtain rfl := Nat.le_zero.mp hfuel
    rw [hzero]
    rfl
  | succ fuel ih =>
    rw [copyLoop]
    by_cases hs : size = 0
    · rw [if_pos hs,hs,hzero]
    have hfirst : P.getUserPhys address write ≠ 0 := h 0 (by omega)
    obtain ⟨hpos,hle,-⟩ := pieceOf_spec address hs
    have hrest := (forall_piece (p := fun v => P.getUserPhys v write ≠ 0)
      fun j hj => (accessible_piece hfirst hs hj).2).mp h
    rw [if_neg hs]
    dsimp only
    rw [sum_of_le (hend.resolve_left hs) hle,Option.bind_some,memcpy_eq_copied hfirst hs,
      ih (by omega) (.inr (by omega)) hrest,copied_add,Nat.add_sub_cancel' hle]

theorem copy_spec (P : UserPages) (address size : Nat) (write : Bool) (m : Bytes) : ∃ ok,
    (ok = true ↔ ∀ i, i < size → P.Accessible write (address + i)) ∧
    P.copy address size write m = some (ok,if ok then P.copied write address 0 size m else m) := by
  obtain ⟨ok,hok,hspec⟩ := P.accessible_spec address size write
  refine ⟨ok,hspec,?_⟩
  rw [copy,hok]
  cases ok with
  | false => rfl
  | true =>
    have hall := hspec.mp rfl
    have hend : size = 0 ∨ address + size ≤ P.layout.userEnd := by
      by_cases hs : size = 0
      · exact .inl hs
      have hr := (userRange_bytes hs).mpr fun i hi => (hall i hi).1
      simp only [userRange,Bool.and_eq_true,decide_eq_true_eq] at hr
      exact .inr (by omega)
    have hloop := copyLoop_spec (P := P) (k := 0) (m := m) size (le_rfl) hend fun i hi => (hall i hi).2
    simp [hloop]

def byte (P : UserPages) (frames : BitVec 64 → UInt8) (v : Nat) : UInt8 := frames (P.getUserPhys v false)

def advanced (P : UserPages) (frames : BitVec 64 → UInt8) (c : StringCopy) (i address k : Nat) : StringCopy :=
  ⟨c.result,store c.buffer (fun j => i + j) (fun j => P.byte frames (address + j)) k,
    c.reads ++ (range k).map fun j => address + j⟩

theorem advanced_succ (frames : BitVec 64 → UInt8) (c : StringCopy) (i address k : Nat) :
    P.advanced frames (P.advanced frames c i address 1) (i + 1) (address + 1) k =
      P.advanced frames c i address (k + 1) := by
  have hbuffer := store_add c.buffer (fun j => i + j) (fun j => P.byte frames (address + j)) 1 k
  simp only [← Nat.add_assoc] at hbuffer
  simp only [advanced,hbuffer,Nat.add_comm 1 k,range_succ_eq_map (n := k)]
  simp [Nat.add_assoc,Nat.add_comm 1,Function.comp_def]

theorem stringLoop_spec (P : UserPages) (address : Nat) (frames : BitVec 64 → UInt8) (n i : Nat) (c : StringCopy) :
    ∃ k, k ≤ n ∧ (∀ j, j < k → P.Accessible false (address + j) ∧ P.byte frames (address + j) ≠ 0) ∧
      (k < n ∧ P.Accessible false (address + k) ∧ P.byte frames (address + k) = 0 ∧
          P.stringLoop frames n i address c =
            some { P.advanced frames c i address (k + 1) with result := (i + k : Nat) } ∨
        k < n ∧ ¬ P.Accessible false (address + k) ∧
          P.stringLoop frames n i address c = some { P.advanced frames c i address k with result := -14 } ∨
        k = n ∧ P.stringLoop frames n i address c = some { P.advanced frames c i address k with result := -36 }) := by
  induction n generalizing i address c with
  | zero =>
    refine ⟨0,le_rfl,fun j hj => by omega,.inr (.inr ⟨rfl,?_⟩)⟩
    simp [stringLoop,advanced,store]
  | succ n ih =>
    have hstop : ¬ P.Accessible false address → P.stringLoop frames (n + 1) i address c =
      some { c with result := -14 } := by
      intro hno
      rw [stringLoop]
      by_cases hr : P.layout.userRange address 1 = true
      · rw [if_neg (by simp [hr])]
        exact if_pos (Decidable.not_not.mp fun hp => hno ⟨hr,hp⟩)
      · rw [if_pos (by simpa using hr)]
    by_cases hacc : P.Accessible false address
    · have hnext : sum address 1 = some (address + 1) := by
        have hr := hacc.1
        simp only [userRange,Bool.and_eq_true,decide_eq_true_eq] at hr
        exact sum_of_le (P := P) (show address + 1 ≤ _ by omega) (Nat.le_refl 1)
      have hstep : P.stringLoop frames (n + 1) i address c =
          if P.byte frames address = 0 then some { P.advanced frames c i address 1 with result := i }
          else P.stringLoop frames n (i + 1) (address + 1) (P.advanced frames c i address 1) := by
        rw [stringLoop,if_neg (by simp [hacc.1])]
        rw [if_neg hacc.2,hnext]
        simp [advanced,store,byte]
      by_cases hzero : P.byte frames address = 0
      · exact ⟨0,Nat.zero_le _,fun j hj => by omega,.inl ⟨by omega,hacc,hzero,by rw [hstep,if_pos hzero]; rfl⟩⟩
      rw [hstep,if_neg hzero]
      obtain ⟨k,hk,hgood,hends⟩ := ih (address + 1) (i + 1) (P.advanced frames c i address 1)
      simp only [advanced_succ,Nat.add_assoc,Nat.add_comm 1] at hends hgood
      refine ⟨k + 1,by omega,fun j hj => ?_,?_⟩
      · cases j with
        | zero => exact ⟨hacc,hzero⟩
        | succ j => exact hgood j (by omega)
      rcases hends with ⟨hlt,hrest⟩ | ⟨hlt,hrest⟩ | ⟨heq,hrest⟩
      · exact .inl ⟨by omega,hrest⟩
      · exact .inr (.inl ⟨by omega,hrest⟩)
      · exact .inr (.inr ⟨by omega,hrest⟩)
    refine ⟨0,Nat.zero_le _,fun j hj => by omega,.inr (.inl ⟨by omega,hacc,?_⟩)⟩
    rw [hstop hacc]
    simp [advanced,store]

theorem copyUserString_spec (m : Bytes) : ∃ c, P.copyUserString address size m = some c ∧
      (∀ n : Nat, c.result = n ↔ n < size ∧ (∀ i, i ≤ n → P.Accessible false (address + i)) ∧
        (∀ i, i < n → P.byte m.frames (address + i) ≠ 0) ∧ P.byte m.frames (address + n) = 0) ∧
      (∀ n : Nat, c.result = n → ∀ i, c.buffer i = if i ≤ n then P.byte m.frames (address + i) else m.buffer i) ∧
      ∀ v ∈ c.reads, P.Accessible false v ∧ ∃ k, v = address + k ∧ k < size ∧
        ∀ i, i < k → P.Accessible false (address + i) ∧ P.byte m.frames (address + i) ≠ 0 := by
  obtain ⟨k,hk,hgood,hends⟩ := P.stringLoop_spec address m.frames size 0 ⟨0,m.buffer,[]⟩
  -- a result decides where the string ends: at the first byte that is zero or not accessible
  have hfirst : ∀ n, P.byte m.frames (address + n) = 0 → k ≤ n := fun n hzero =>
    Nat.not_lt.mp fun hlt => (hgood n hlt).2 hzero
  have hreads : ∀ r, (∀ j, j < r → P.Accessible false (address + j)) → r ≤ size → r ≤ k + 1 →
      ∀ v ∈ (P.advanced m.frames ⟨0,m.buffer,[]⟩ 0 address r).reads, P.Accessible false v ∧
        ∃ k, v = address + k ∧ k < size ∧
          ∀ i, i < k → P.Accessible false (address + i) ∧ P.byte m.frames (address + i) ≠ 0 := by
    intro r hr hsize hrk v hv
    obtain ⟨j,hj,rfl⟩ := mem_map.mp (by simpa only [advanced,nil_append] using hv)
    have hj := mem_range.mp hj
    exact ⟨hr j hj,j,rfl,by omega,fun i hi => hgood i (by omega)⟩
  rcases hends with ⟨hlt,hacc,hzero,hloop⟩ | ⟨hlt,hacc,hloop⟩ | ⟨heq,hloop⟩
  · have hall : ∀ i, i ≤ k → P.Accessible false (address + i) := fun i hi => by
      rcases Nat.lt_or_eq_of_le hi with hi | rfl
      · exact (hgood i hi).1
      · exact hacc
    refine ⟨_,hloop,fun n => ⟨fun hn => ?_,fun h => ?_⟩,fun n hn i => ?_,
      hreads (k + 1) (fun j hj => hall j (by omega)) hlt (le_rfl)⟩
    · obtain rfl : k = n := by
        dsimp only at hn
        omega
      exact ⟨hlt,hall,fun i hi => (hgood i hi).2,hzero⟩
    · obtain ⟨_,hn,hne,hz⟩ := h
      have hle := hfirst n hz
      have hge : n ≤ k := Nat.not_lt.mp fun hlt => hne k hlt hzero
      dsimp only
      omega
    obtain rfl : k = n := by
      dsimp only at hn
      omega
    have hstore := store_id m.buffer (fun j => P.byte m.frames (address + j)) (k + 1) i
    simp only [Nat.lt_succ_iff] at hstore
    rw [← hstore]
    exact congrFun (store_congr (fun j _ => Nat.zero_add j) fun _ _ => rfl) i
  · refine ⟨_,hloop,fun n => ⟨fun hn => ?_,fun h => ?_⟩,fun n hn i => ?_,
      hreads k (fun j hj => (hgood j hj).1) hk (Nat.le_succ _)⟩
    · dsimp only at hn
      omega
    · obtain ⟨_,hn,_,hz⟩ := h
      exact absurd (hn k (hfirst n hz)) hacc
    · dsimp only at hn
      omega
  refine ⟨_,hloop,fun n => ⟨fun hn => ?_,fun h => ?_⟩,fun n hn i => ?_,
    hreads k (fun j hj => (hgood j hj).1) hk (Nat.le_succ _)⟩
  · dsimp only at hn
    omega
  · obtain ⟨hlt,_,_,hz⟩ := h
    have hle := hfirst n hz
    omega
  · dsimp only at hn
    omega

end Results
end UserPages

open UserPages in
/-- A copy works exactly if all its bytes are accessible, and then moves these bytes in order; otherwise
it changes nothing. A string is returned exactly if it may be read up to its zero and fits, and nothing
behind it is read. No sum wraps. -/
theorem user_copies (P : UserPages) (address size : Nat) (m : Bytes) :
    (∃ ok m', P.copyFromUser address size m = some (ok,m') ∧
      (ok = true ↔ ∀ i, i < size → P.Accessible false (address + i)) ∧ (ok = false → m' = m) ∧
      (ok = true → m'.frames = m.frames ∧
        ∀ i, m'.buffer i = if i < size then P.byte m.frames (address + i) else m.buffer i)) ∧
    (∃ ok m', P.copyToUser address size m = some (ok,m') ∧
      (ok = true ↔ ∀ i, i < size → P.Accessible true (address + i)) ∧ (ok = false → m' = m) ∧
      (ok = true → m'.buffer = m.buffer ∧
        m'.frames = store m.frames (fun i => P.getUserPhys (address + i) true) m.buffer size)) ∧
    ∃ c, P.copyUserString address size m = some c ∧
      (∀ n : Nat, c.result = n ↔ n < size ∧ (∀ i, i ≤ n → P.Accessible false (address + i)) ∧
        (∀ i, i < n → P.byte m.frames (address + i) ≠ 0) ∧ P.byte m.frames (address + n) = 0) ∧
      (∀ n : Nat, c.result = n → ∀ i, c.buffer i = if i ≤ n then P.byte m.frames (address + i) else m.buffer i) ∧
      ∀ v ∈ c.reads, P.Accessible false v ∧ ∃ k, v = address + k ∧ k < size ∧
        ∀ i, i < k → P.Accessible false (address + i) ∧ P.byte m.frames (address + i) ≠ 0 := by
  refine ⟨?_,?_,copyUserString_spec m⟩
  · obtain ⟨ok,hok,hcopy⟩ := P.copy_spec address size false m
    refine ⟨ok,_,hcopy,hok,fun hno => by rw [hno]; rfl,fun hyes => ?_⟩
    rw [if_pos hyes]
    refine ⟨rfl,fun i => ?_⟩
    have hstore := store_id m.buffer (fun j => P.byte m.frames (address + j)) size i
    rw [← hstore]
    exact congrFun (store_congr (fun j _ => Nat.zero_add j) fun _ _ => rfl) i
  obtain ⟨ok,hok,hcopy⟩ := P.copy_spec address size true m
  refine ⟨ok,_,hcopy,hok,fun hno => by rw [hno]; rfl,fun hyes => ?_⟩
  rw [if_pos hyes]
  exact ⟨rfl,store_congr (fun _ _ => rfl) fun j _ => congrArg m.buffer (Nat.zero_add j)⟩

/-- On both architectures, 16 bytes across the end of a page. -/
theorem user_copies_across :
    let m : UserPages.Bytes := ⟨fun _ => 0,fun a => UInt8.ofNat a.toNat⟩
    (∃ m', (UserPages.amd64 ⟨fun _ _ => 0x1007,0,[],[],[]⟩ 0x1000).copyFromUser 0x8000000FF8 16 m = some (true,m') ∧
      m'.buffer 7 = 0xFF) ∧
    ∃ m', (UserPages.aarch64 (fun _ _ => 0x1047) 0x1000).copyFromUser 0x100000FF8 16 m = some (true,m') ∧
      m'.buffer 7 = 0xFF := by
  intro m
  have hcopy : ∀ (P : UserPages) (address : Nat), (∀ i, i < 16 → P.Accessible false (address + i)) →
      P.byte m.frames (address + 7) = 0xFF →
      ∃ m', P.copyFromUser address 16 m = some (true,m') ∧ m'.buffer 7 = 0xFF := by
    intro P address hacc hbyte
    obtain ⟨⟨ok,m',hc,hok,-,hread⟩,-⟩ := user_copies P address 16 m
    obtain rfl := hok.mpr hacc
    exact ⟨m',hc,((hread rfl).2 7).trans hbyte⟩
  exact ⟨hcopy _ _ (by unfold UserPages.Accessible; decide +kernel) (by decide +kernel),
    hcopy _ _ (by unfold UserPages.Accessible; decide +kernel) (by decide +kernel)⟩

end Rucux.Memory
