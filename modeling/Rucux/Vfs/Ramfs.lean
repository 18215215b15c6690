import Mathlib.Algebra.Order.Ring.Nat
import Rucux.Lib.Blit
import Rucux.Lib.Machine

/-!
A regular file in memory. The buffer keeps its size when the file shrinks, so behind the end of
the file there may be bytes that were cut off. A call reserves the node, or fails with -16 if
another one has it; what it does then nobody sees before it gives the node back. What `new`
returns comes with the event.
-/

namespace Rucux.Vfs
open Lib List Option

def longMax : Nat := 2^63 - 1

/-- The node and its `ramfs_node_internal`: the buffer or null, the size of the buffer, and the
length of the file. -/
structure RamFile where
  data : Option (List UInt8)
  size : Nat
  length : Nat

def bytesAt (memory : Nat → UInt8) (size : Nat) : List UInt8 := (range size).map memory

/-- A call with its arguments; a buffer is null or points to memory. -/
inductive Op where
  | read (offset size : UInt64) (buffer : Bool)
  | write (offset size : UInt64) (buffer : Option (Nat → UInt8))
  | append (size : UInt64) (buffer : Option (Nat → UInt8))
  | truncate (length : UInt64)

/-- What a call returns, what it stores in the caller's buffer, and in `end_offset`. -/
structure Answer where
  result : Int
  bytes : List UInt8
  endOffset : Option Nat

def Answer.code (result : Int) : Answer := ⟨result,[],none⟩

namespace RamFile

def contents (f : RamFile) : List UInt8 := (f.data.getD []).take f.length

def create (content : List UInt8) : RamFile := ⟨some content,content.length,content.length⟩

def read (f : RamFile) (offset size : Nat) : Answer :=
  if offset ≥ f.length then .code 0
  else
    match f.data with
    | none => .code (-5)
    | some d =>
      if f.length > f.size then .code (-5)
      else
        let size := if size > f.length - offset then f.length - offset else size
        let size := if size > longMax then longMax else size
        ⟨size,(d.drop offset).take size,none⟩

def expand (f : RamFile) (required : Nat) : RamFile :=
  { f with
    data := some (blit (replicate required 0) 0 ((f.data.getD []).take f.size))
    size := required }

def store (f : RamFile) (offset : Nat) (bytes : List UInt8) : RamFile :=
  let d := f.data.getD []
  let d := if offset > f.length then blit d f.length (replicate (offset - f.length) 0) else d
  { f with
    data := some (blit d offset bytes)
    length := if offset + bytes.length > f.length then offset + bytes.length else f.length }

def writeData (f : RamFile) (offset : Nat) (bytes : List UInt8) (alloc : Bool) : Nat × RamFile :=
  if bytes.length > 2^64 - 1 - offset then (0,f)
  else if bytes.length = 0 then (0,f)
  else
    let required := offset + bytes.length
    if required > f.size then
      if alloc then (bytes.length,(f.expand required).store offset bytes) else (0,f)
    else (bytes.length,f.store offset bytes)

def write (f : RamFile) (offset : Nat) (bytes : List UInt8) (alloc : Bool) : Answer × RamFile :=
  let r := f.writeData offset bytes alloc
  if r.1 ≠ 0 then (.code r.1,r.2) else (.code (-12),r.2)

def append (f : RamFile) (bytes : List UInt8) (alloc : Bool) : Answer × RamFile :=
  if f.length > longMax || bytes.length > longMax - f.length then (.code (-75),f)
  else
    let r := f.writeData f.length bytes alloc
    if r.1 = 0 then (.code (-12),r.2) else (⟨r.1,[],some r.2.length⟩,r.2)

def truncate (f : RamFile) (length : Nat) : Answer × RamFile :=
  if length > f.length then (.code (-95),f) else (.code 0,{ f with length := length })

end RamFile

def Op.early : Op → Option Int
  | .read _ size buffer => if size.toNat = 0 then some 0 else if !buffer then some (-14) else none
  | .write offset size buffer =>
    if size.toNat = 0 then some 0
    else if buffer.isNone then some (-14)
    else if offset.toNat > longMax || size.toNat > longMax - offset.toNat then some (-75)
    else none
  | .append size buffer =>
    if size.toNat = 0 then some 0 else if buffer.isNone then some (-14) else none
  | .truncate _ => none

def Op.bytes : Op → List UInt8
  | .write _ size (some memory) => bytesAt memory size.toNat
  | .append size (some memory) => bytesAt memory size.toNat
  | _ => []

def RamFile.perform (f : RamFile) (alloc : Bool) : Op → Answer × RamFile
  | .read offset size _ => (f.read offset.toNat size.toNat,f)
  | .write offset size buffer => f.write offset.toNat (Op.write offset size buffer).bytes alloc
  | .append size buffer => f.append (Op.append size buffer).bytes alloc
  | .truncate length => f.truncate length.toNat

/-- A call that is over: whether another one had the node, what `new` would have said, and what the
caller got. -/
structure Done where
  op : Op
  busy : Bool
  alloc : Bool
  answer : Answer

structure Ramfs (n : Nat) where
  file : RamFile
  holder : Option (Fin n × Op)
  log : List Done

namespace Ramfs
variable {n : Nat}

inductive Event (n : Nat) where
  | call (t : Fin n) (op : Op)
  | work (t : Fin n) (alloc : Bool)

def call (s : Ramfs n) (t : Fin n) (op : Op) : Ramfs n :=
  match op.early with
  | some r => { s with log := s.log ++ [⟨op,s.holder.isSome,true,.code r⟩] }
  | none =>
    if s.holder.isSome then { s with log := s.log ++ [⟨op,true,true,.code (-16)⟩] }
    else { s with holder := some (t,op) }

def work (s : Ramfs n) (t : Fin n) (alloc : Bool) : Ramfs n :=
  match s.holder with
  | none => s
  | some (u,op) =>
    if u = t then
      let r := s.file.perform alloc op
      ⟨r.2,none,s.log ++ [⟨op,false,alloc,r.1⟩]⟩
    else s

def step (s : Ramfs n) : Event n → Ramfs n
  | .call t op => s.call t op
  | .work t alloc => s.work t alloc

def machine (n : Nat) (content : List UInt8) : Machine (Ramfs n) (Event n) where
  initial := ⟨.create content,none,[]⟩
  step := step

end Ramfs

def writeAt (xs : List UInt8) (offset : Nat) (bytes : List UInt8) : List UInt8 :=
  blit (xs ++ replicate (offset - xs.length) 0) offset bytes

/-- What a call on the list `xs` may answer, and what it makes of the list. -/
def Permits (xs : List UInt8) (d : Done) (ys : List UInt8) : Prop :=
  match d.op.early with
  | some r => d.answer = .code r ∧ ys = xs
  | none =>
    if d.busy then d.answer = .code (-16) ∧ ys = xs
    else
      match d.op with
      | .read offset size _ =>
        let slice := (xs.drop offset.toNat).take size.toNat
        d.answer = ⟨slice.length,slice,none⟩ ∧ ys = xs
      | .write offset size _ =>
        d.answer = .code size.toNat ∧ ys = writeAt xs offset.toNat d.op.bytes ∨
          d.alloc = false ∧ d.answer = .code (-12) ∧ ys = xs
      | .append size _ =>
        if xs.length + size.toNat > longMax then d.answer = .code (-75) ∧ ys = xs
        else
          d.answer = ⟨size.toNat,[],some (xs.length + size.toNat)⟩ ∧ ys = xs ++ d.op.bytes ∨
            d.alloc = false ∧ d.answer = .code (-12) ∧ ys = xs
      | .truncate length =>
        if length.toNat > xs.length then d.answer = .code (-95) ∧ ys = xs
        else d.answer = .code 0 ∧ ys = xs.take length.toNat

/-- The calls lead from one list to the other. -/
inductive History : List UInt8 → List Done → List UInt8 → Prop where
  | nil (xs : List UInt8) : History xs [] xs
  | snoc {xs ys zs : List UInt8} {log : List Done} {d : Done} (h : History xs log ys)
      (hd : Permits ys d zs) : History xs (log ++ [d]) zs

namespace RamFile
variable {f : RamFile}

/-- The buffer has the size that is noted for it, and the file does not go beyond it. -/
structure Sound (f : RamFile) : Prop where
  sized : (f.data.getD []).length = f.size
  within : f.length ≤ f.size
  bounded : f.size ≤ longMax

theorem Sound.length_contents (h : f.Sound) : f.contents.length = f.length := by
  have h1 := h.sized
  have h2 := h.within
  simp [contents,h1,h2]

theorem length_bytesAt (memory : Nat → UInt8) (size : Nat) : (bytesAt memory size).length = size := by
  simp [bytesAt]

theorem Sound.read (h : f.Sound) (offset size : Nat) :
    f.read offset size = ⟨((f.contents.drop offset).take size).length,
      (f.contents.drop offset).take size,none⟩ := by
  have h1 := h.sized
  have h2 := h.within
  have h3 := h.bounded
  unfold RamFile.read
  by_cases hoff : offset ≥ f.length
  · have hnil : f.contents.drop offset = [] := by
      rw [drop_eq_nil_iff,h.length_contents]
      exact hoff
    simp [hoff,hnil,Answer.code]
  rw [if_neg hoff]
  cases hd : f.data with
  | none => simp [hd] at h1; omega
  | some d =>
    have hlen : d.length = f.size := by simpa [hd] using h1
    have hcut : (f.contents.drop offset).take size = (d.drop offset).take (min size (f.length - offset)) := by
      simp only [contents,hd,getD_some,drop_take,take_take]
    have hmin : (if size > f.length - offset then f.length - offset else size) =
        min size (f.length - offset) := by
      split <;> omega
    have hmax : ¬min size (f.length - offset) > longMax := by omega
    simp only [if_neg (show ¬f.length > f.size by omega),hmin,if_neg hmax,hcut]
    simp [hlen]
    omega

theorem Sound.expand (h : f.Sound) {required : Nat} (h1 : f.size < required) (h2 : required ≤ longMax) :
    (f.expand required).Sound ∧ (f.expand required).contents = f.contents := by
  have h3 := h.sized
  have h4 := h.within
  have htake : (f.data.getD []).take f.size = f.data.getD [] := by
    rw [← h3,take_length]
  have hlen : (blit (replicate required (0 : UInt8)) 0 (f.data.getD [])).length = required := by
    rw [length_blit (by simp)]
    simp [h3]
    omega
  refine ⟨⟨?_,?_,h2⟩,?_⟩
  · simpa [RamFile.expand,htake] using hlen
  · show f.length ≤ required
    omega
  · simp only [contents,RamFile.expand,getD_some,htake,blit,take_zero,nil_append]
    rw [take_append_of_le_length (by omega)]

variable {bytes : List UInt8}

theorem Sound.store (h : f.Sound) {offset : Nat} (hfits : offset + bytes.length ≤ f.size) :
    (f.store offset bytes).Sound ∧ (f.store offset bytes).contents = writeAt f.contents offset bytes := by
  have h1 := h.sized
  have h2 := h.within
  -- the buffer after the gap is filled
  let d := f.data.getD []
  let e := if offset > f.length then blit d f.length (replicate (offset - f.length) 0) else d
  have hd : d.length = f.size := h1
  have helen : e.length = f.size := by
    show (if offset > f.length then _ else _ : List UInt8).length = f.size
    split
    · rw [length_blit (by omega),length_replicate]
      omega
    · exact hd
  have hfront : e.take (max f.length offset) =
      f.contents ++ replicate (offset - f.contents.length) 0 := by
    rw [h.length_contents]
    show take _ (if offset > f.length then _ else _ : List UInt8) = _
    split
    · have hmax : max f.length offset = max f.length (f.length + (replicate (offset - f.length)
          (0 : UInt8)).length) := by
        rw [length_replicate]
        omega
      rw [hmax,take_blit (le_rfl) (by omega)]
      have hend : (d.take f.length).length = f.length := by
        rw [length_take]
        omega
      have hblit : blit (d.take f.length) (d.take f.length).length
          (replicate (offset - f.length) 0) = f.contents ++ replicate (offset - f.length) 0 :=
        blit_end
      rwa [hend] at hblit
    · rw [show max f.length offset = f.length by omega,show offset - f.length = 0 by omega]
      simp [contents,d]
  have hnew : (if offset + bytes.length > f.length then offset + bytes.length else f.length) =
      max (max f.length offset) (offset + bytes.length) := by
    split <;> omega
  refine ⟨⟨?_,?_,h.bounded⟩,?_⟩
  · show (blit e offset bytes).length = f.size
    rw [length_blit (by omega)]
    omega
  · show (if _ then _ else _ : Nat) ≤ f.size
    omega
  show (blit e offset bytes).take (if _ then _ else _ : Nat) = _
  rw [hnew,take_blit (by omega) (by omega),hfront]
  rfl

section
variable (h : f.Sound) {offset : Nat} (h0 : bytes.length ≠ 0) (hmax : offset + bytes.length ≤ longMax)
  (alloc : Bool)
include h h0 hmax

theorem Sound.writeData : (∃ f', f.writeData offset bytes alloc = (bytes.length,f') ∧ f'.Sound ∧
      f'.contents = writeAt f.contents offset bytes) ∨
    alloc = false ∧ f.writeData offset bytes alloc = (0,f) := by
  have hlong : longMax = 2^63 - 1 := rfl
  unfold RamFile.writeData
  rw [if_neg (by omega),if_neg h0]
  dsimp only
  split
  · rename_i hsize
    cases alloc with
    | false => exact .inr ⟨rfl,rfl⟩
    | true =>
      obtain ⟨he,hc⟩ := h.expand hsize hmax
      obtain ⟨hs,hw⟩ := he.store (le_rfl)
      rw [hc] at hw
      exact .inl ⟨_,rfl,hs,hw⟩
  have hfits : offset + bytes.length ≤ f.size := by omega
  obtain ⟨hs,hw⟩ := h.store hfits
  exact .inl ⟨_,rfl,hs,hw⟩

theorem Sound.write : (∃ f', f.write offset bytes alloc = (.code bytes.length,f') ∧ f'.Sound ∧
      f'.contents = writeAt f.contents offset bytes) ∨
    alloc = false ∧ f.write offset bytes alloc = (.code (-12),f) := by
  unfold RamFile.write
  rcases h.writeData h0 hmax alloc with ⟨f',h1,hs,hc⟩ | ⟨ha,h1⟩
  · rw [h1]
    exact .inl ⟨f',if_pos h0,hs,hc⟩
  · rw [h1]
    exact .inr ⟨ha,rfl⟩

end

theorem writeAt_end (xs bytes : List UInt8) : writeAt xs xs.length bytes = xs ++ bytes := by
  simp [writeAt,blit_end]

theorem Sound.append (h : f.Sound) (h0 : bytes.length ≠ 0) (alloc : Bool) :
    f.length + bytes.length > longMax ∧ f.append bytes alloc = (.code (-75),f) ∨
    f.length + bytes.length ≤ longMax ∧
      ((∃ f', f.append bytes alloc = (⟨bytes.length,[],some (f.length + bytes.length)⟩,f') ∧
        f'.Sound ∧ f'.contents = f.contents ++ bytes) ∨
      alloc = false ∧ f.append bytes alloc = (.code (-12),f)) := by
  unfold RamFile.append
  by_cases hmax : f.length + bytes.length > longMax
  · exact .inl ⟨hmax,if_pos (by simp; omega)⟩
  rw [if_neg (by simp; omega)]
  refine .inr ⟨by omega,?_⟩
  rcases h.writeData h0 (by omega : f.length + bytes.length ≤ longMax) alloc with ⟨f',h1,hs,hc⟩ | ⟨ha,h1⟩
  · have hend := writeAt_end f.contents bytes
    rw [h.length_contents] at hend
    rw [hend] at hc
    have hnew := hs.length_contents
    rw [hc,length_append,h.length_contents] at hnew
    rw [h1]
    exact .inl ⟨f',by simp [h0,hnew],hs,hc⟩
  · rw [h1]
    exact .inr ⟨ha,rfl⟩

theorem Sound.perform (h : f.Sound) (op : Op) (hop : op.early = none) (alloc : Bool) :
    (f.perform alloc op).2.Sound ∧
      Permits f.contents ⟨op,false,alloc,(f.perform alloc op).1⟩ (f.perform alloc op).2.contents := by
  have hlen := h.length_contents
  simp only [Permits,hop]
  cases op with
  | read offset size buffer => exact ⟨h,by simp [RamFile.perform,h.read]⟩
  | truncate length =>
    simp only [RamFile.perform,RamFile.truncate,hlen]
    split
    · exact ⟨h,by simp⟩
    have h1 := h.within
    refine ⟨⟨h.sized,?_,h.bounded⟩,?_⟩
    · show length.toNat ≤ f.size
      omega
    simp only [Bool.false_eq_true,if_false,contents,take_take,true_and]
    congr 1
    omega
  | write offset size buffer =>
    simp only [Op.early] at hop
    cases buffer with
    | none => split at hop <;> simp at hop
    | some memory =>
      have h0 : size.toNat ≠ 0 := by
        intro h0
        simp [h0] at hop
      have hmax : offset.toNat + size.toNat ≤ longMax := by
        simp only [h0,if_false,isNone_some,Bool.false_eq_true] at hop
        split at hop
        · cases hop
        rename_i hno
        simp only [Bool.or_eq_true,decide_eq_true_eq,not_or] at hno
        omega
      have hb := length_bytesAt memory size.toNat
      rcases h.write (by rwa [hb]) (by rwa [hb] : _ + (bytesAt memory size.toNat).length ≤ _) alloc with
        ⟨f',h1,hs,hc⟩ | ⟨ha,h1⟩
      · simp only [RamFile.perform,Op.bytes,h1]
        exact ⟨hs,by simp [hb,hc]⟩
      · simp only [RamFile.perform,Op.bytes,h1]
        exact ⟨h,by simp [ha]⟩
  | append size buffer =>
    simp only [Op.early] at hop
    cases buffer with
    | none => split at hop <;> simp at hop
    | some memory =>
      have h0 : size.toNat ≠ 0 := by
        intro h0
        simp [h0] at hop
      have hb := length_bytesAt memory size.toNat
      rcases h.append (by rwa [hb] : (bytesAt memory size.toNat).length ≠ 0) alloc with
        ⟨hmax,h1⟩ | ⟨hmax,⟨f',h1,hs,hc⟩ | ⟨ha,h1⟩⟩
      · rw [hb] at hmax
        simp only [RamFile.perform,Op.bytes,h1]
        exact ⟨h,by simp [hlen,hmax]⟩
      · rw [hb] at hmax h1
        simp only [RamFile.perform,Op.bytes,h1]
        exact ⟨hs,by simp [hlen,Nat.not_lt.mpr hmax,hc]⟩
      rw [hb] at hmax
      simp only [RamFile.perform,Op.bytes,h1]
      exact ⟨h,by simp [hlen,Nat.not_lt.mpr hmax,ha]⟩

end RamFile

namespace Ramfs
variable {n : Nat} {s : Ramfs n}

/-- The file is sound, and the call that has the node passed its checks. -/
structure Sound (s : Ramfs n) : Prop where
  file : s.file.Sound
  checked : ∀ t op, s.holder = some (t,op) → op.early = none

theorem Sound.step (h : s.Sound) (e : Event n) : (s.step e).Sound ∧ ∃ log, (s.step e).log = s.log ++ log ∧
      History s.file.contents log (s.step e).file.contents := by
  have hquiet : ∃ log, s.log = s.log ++ log ∧ History s.file.contents log s.file.contents :=
    ⟨[],by simp,.nil _⟩
  have hone : ∀ {d : Done} {ys : List UInt8}, Permits s.file.contents d ys →
      History s.file.contents [d] ys := fun hd => History.snoc (.nil _) hd
  cases e with
  | call t op =>
    simp only [Ramfs.step,call]
    cases hop : op.early with
    | some r => exact ⟨⟨h.file,h.checked⟩,_,rfl,hone (by simp [Permits,hop])⟩
    | none =>
      dsimp only
      split
      · exact ⟨⟨h.file,h.checked⟩,_,rfl,hone (by simp [Permits,hop])⟩
      refine ⟨⟨h.file,fun u op' hu => ?_⟩,hquiet⟩
      obtain ⟨-,rfl⟩ : t = u ∧ op = op' := by simpa using hu
      exact hop
  | work t alloc =>
    simp only [Ramfs.step,work]
    cases hh : s.holder with
    | none => exact ⟨h,hquiet⟩
    | some x =>
      obtain ⟨u,op⟩ := x
      dsimp only
      split
      · obtain ⟨hs,hp⟩ := h.file.perform op (h.checked u op hh) alloc
        exact ⟨⟨hs,nofun⟩,_,rfl,hone hp⟩
      · exact ⟨h,hquiet⟩

end Ramfs

variable {xs ys : List UInt8}

theorem History.trans {zs : List UInt8} {log log' : List Done} (h : History xs log ys)
    (h' : History ys log' zs) : History xs (log ++ log') zs := by
  induction h' with
  | nil => simpa using h
  | snoc _ hd ih =>
    rw [← append_assoc]
    exact .snoc ih hd

def Supplied (log : List Done) (b : UInt8) : Prop := ∃ d ∈ log, 0 < d.answer.result ∧ b ∈ d.op.bytes

theorem byte_of_blit {k i : Nat} (hk : k ≤ xs.length) {b : UInt8} (hb : (blit xs k ys)[i]? = some b) :
    xs[i]? = some b ∨ b ∈ ys := by
  rw [getElem?_blit hk] at hb
  split at hb
  · exact .inl hb
  split at hb
  · exact .inr (mem_of_getElem? hb)
  · exact .inl hb

theorem Permits.byte {d : Done} (h : Permits xs d ys) {i : Nat} {b : UInt8} (hb : ys[i]? = some b) :
    xs[i]? = some b ∨ b = 0 ∨ 0 < d.answer.result ∧ b ∈ d.op.bytes := by
  unfold Permits at h
  cases hop : d.op.early with
  | some r =>
    rw [hop] at h
    exact .inl (h.2 ▸ hb)
  | none =>
    rw [hop] at h
    dsimp only at h
    split at h
    · exact .inl (h.2 ▸ hb)
    split at h
    · exact .inl (h.2 ▸ hb)
    · rename_i offset size buffer heq
      rcases h with ⟨ha,rfl⟩ | ⟨-,-,rfl⟩
      · have h0 : size.toNat ≠ 0 := fun h0 => by simp [heq,Op.early,h0] at hop
        have hle : offset.toNat ≤ (xs ++ replicate (offset.toNat - xs.length) (0 : UInt8)).length := by
          simp
          omega
        rcases byte_of_blit hle hb with hx | hx
        · rw [getElem?_append] at hx
          split at hx
          · exact .inl hx
          · exact .inr (.inl (eq_of_mem_replicate (mem_of_getElem? hx)))
        refine .inr (.inr ⟨?_,hx⟩)
        rw [ha]
        show (0 : Int) < (size.toNat : Int)
        omega
      · exact .inl hb
    · rename_i size buffer heq
      have h0 : size.toNat ≠ 0 := fun h0 => by simp [heq,Op.early,h0] at hop
      split at h
      · exact .inl (h.2 ▸ hb)
      rcases h with ⟨ha,rfl⟩ | ⟨-,-,rfl⟩
      · rw [getElem?_append] at hb
        split at hb
        · exact .inl hb
        refine .inr (.inr ⟨?_,mem_of_getElem? hb⟩)
        rw [ha]
        show (0 : Int) < (size.toNat : Int)
        omega
      · exact .inl hb
    split at h
    · exact .inl (h.2 ▸ hb)
    rw [h.2,getElem?_take] at hb
    split at hb
    · exact .inl hb
    · cases hb

theorem History.byte {log : List Done} (h : History xs log ys) {i : Nat} {b : UInt8}
    (hi : xs.length ≤ i) (hb : ys[i]? = some b) : b = 0 ∨ Supplied log b := by
  induction h generalizing b with
  | nil =>
    rw [getElem?_eq_none hi] at hb
    cases hb
  | snoc _ hd ih =>
    rcases hd.byte hb with h1 | h1 | ⟨h1,h2⟩
    · rcases ih h1 with h2 | ⟨d,hm,h2⟩
      · exact .inl h2
      · exact .inr ⟨d,mem_append_left _ hm,h2⟩
    · exact .inl h1
    · exact .inr ⟨_,by simp,h1,h2⟩

theorem Permits.negative {d : Done} (h : Permits xs d ys) (hneg : d.answer.result < 0) : ys = xs := by
  unfold Permits at h
  split at h
  · exact h.2
  split at h
  · exact h.2
  split at h
  · exact h.2
  · rcases h with ⟨ha,-⟩ | ⟨-,-,h2⟩
    · rw [ha] at hneg
      exact absurd hneg (by simp [Answer.code])
    · exact h2
  · split at h
    · exact h.2
    rcases h with ⟨ha,-⟩ | ⟨-,-,h2⟩
    · rw [ha] at hneg
      exact absurd hneg (by simp)
    · exact h2
  split at h
  · exact h.2
  rw [h.1] at hneg
  exact absurd hneg (by simp [Answer.code])

namespace Ramfs
variable {n : Nat}

theorem Sound.runFrom {s : Ramfs n} (h : s.Sound) (content : List UInt8) (es : List (Event n)) :
    ((machine n content).runFrom s es).Sound ∧ ∃ log, ((machine n content).runFrom s es).log = s.log ++ log ∧
      History s.file.contents log ((machine n content).runFrom s es).file.contents := by
  induction es generalizing s with
  | nil => exact ⟨h,[],by simp,.nil _⟩
  | cons e es ih =>
    obtain ⟨h1,log1,hl1,hh1⟩ := h.step e
    obtain ⟨h2,log2,hl2,hh2⟩ := ih h1
    refine ⟨h2,log1 ++ log2,?_,hh1.trans hh2⟩
    exact hl2.trans (by rw [hl1,append_assoc])

theorem sound_initial (content : List UInt8) (h : content.length ≤ longMax) :
    (machine n content).initial.Sound :=
  ⟨⟨rfl,le_rfl,h⟩,nofun⟩

end Ramfs

open Ramfs

/-- The calls on a file, however they overlap and wherever memory is out, are those of a list of bytes, and one with
a negative answer changes nothing. A byte at or behind the end is zero or supplied by a later call, so what was cut
off does not come back. -/
theorem ramfs_refinement (n : Nat) (content : List UInt8) (hlen : content.length ≤ longMax)
    (es es' : List (Event n)) :
    let s := (machine n content).run es
    let s' := (machine n content).run (es ++ es')
    History content s.log s.file.contents ∧
      (∃ log, s'.log = s.log ++ log ∧ History s.file.contents log s'.file.contents ∧
        (∀ i b, s.file.contents.length ≤ i → s'.file.contents[i]? = some b → b = 0 ∨ Supplied log b)) ∧
      (∀ xs d ys, Permits xs d ys → d.answer.result < 0 → ys = xs) ∧
      s.file.contents.length = s.file.length ∧ s.file.length ≤ (s.file.data.getD []).length := by
  intro s s'
  have h0 : (machine n content).initial.Sound := sound_initial content hlen
  obtain ⟨hs,log0,hlog0,hist0⟩ := h0.runFrom content es
  obtain ⟨-,log,hlog,hist⟩ := hs.runFrom content es'
  have hcontent : (machine n content).initial.file.contents = content := by
    simp [machine,RamFile.create,RamFile.contents]
  have hs' : s' = (machine n content).runFrom s es' := (machine n content).run_append es es'
  refine ⟨?_,⟨log,?_,?_,?_⟩,fun xs d ys h hneg => h.negative hneg,hs.file.length_contents,?_⟩
  · rw [hcontent] at hist0
    rw [show s.log = log0 from hlog0.trans (nil_append _)]
    exact hist0
  · rw [hs']
    exact hlog
  · rw [hs']
    exact hist
  · rw [hs']
    exact fun i b hi hb => hist.byte hi hb
  · exact Nat.le_trans hs.file.within (Nat.le_of_eq hs.file.sized.symm)

namespace Ramfs

/-- The file shrinks, is written beyond its end, and has no memory for an append; a call that comes
in between finds the node reserved. -/
def shrinkAndGap (t u : Fin 2) : List (Event 2) :=
  [.call t (.truncate 1),.call u (.read 0 4 true),.work t true,
    .call t (.write 3 1 (some fun _ => 9)),.work t true,
    .call u (.append 2 (some fun _ => 5)),.work u false,.call u (.read 0 9 true),.work u true]

end Ramfs

theorem ramfs_refinement_shrinkAndGap :
    ((machine 2 [7,8]).run (shrinkAndGap 0 1)).file.contents = [7,0,0,9] ∧
    ((machine 2 [7,8]).run (shrinkAndGap 0 1)).log.map (fun d => (d.answer.result,d.answer.bytes)) =
      [(-16,[]),(0,[]),(1,[]),(-12,[]),(4,[7,0,0,9])] ∧
    History [7,8] ((machine 2 [7,8]).run (shrinkAndGap 0 1)).log
      ((machine 2 [7,8]).run (shrinkAndGap 0 1)).file.contents :=
  ⟨by decide +kernel,by decide +kernel, (ramfs_refinement 2 [7,8] (by decide) (shrinkAndGap 0 1) []).1⟩

end Rucux.Vfs
