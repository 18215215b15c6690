import Mathlib.Algebra.Order.Ring.Nat
import Mathlib.Data.List.Basic

/-! Input from one stream. -/

namespace Rucux.Libc.Stdio
open List

/-- `_FILE`, with the offset of its descriptor and the number of reads before. -/
structure File where
  offset : Nat
  ungetcBuf : Int
  eofFlag : Bool
  reads : Nat

def fdopen (offset : Nat) : File := ⟨offset,-1,false,0⟩

/-- With an `fseek` comes what `refresh_metadata` returns there. -/
inductive Call where
  | fgetc
  | fgets (size : Int)
  | fread (size nmemb : Nat)
  | ungetc (c : Int)
  | fseek (offset whence refresh : Int)
  | ftell

/-- What a call returns, and the bytes it delivers. -/
structure Result where
  value : Int
  bytes : List UInt8

/-- The contents of the file, and the most that each read of it gives; one that fails gives nothing. -/
structure Disk where
  contents : List UInt8
  most : Nat → Nat

variable (d : Disk)

def read (f : File) (n : Nat) : List UInt8 × File :=
  let bytes := if 2^63 ≤ n then [] else (d.contents.drop f.offset).take (min n (d.most f.reads))
  (bytes,{ f with offset := f.offset + bytes.length, reads := f.reads + 1 })

/-- What an offset is added to, for a stream that is at `here`. -/
def origin (here whence : Int) : Int :=
  if whence = 0 then 0 else if whence = 1 then here else d.contents.length

def sysLseek (f : File) (offset whence refresh : Int) : Int × File :=
  if whence = 2 ∧ refresh < 0 then (refresh,f)
  else if whence ≠ 0 ∧ whence ≠ 1 ∧ whence ≠ 2 then (-22,f)
  else
    let target := origin d f.offset whence + offset
    if target < 0 then (-22,f)
    else if 2^63 ≤ target then (-75,f)
    else (target,{ f with offset := target.toNat })

def lseek (f : File) (offset whence refresh : Int) : Int × File :=
  let r := sysLseek d f offset whence refresh
  if r.1 < 0 then (-1,r.2) else r

def fread (f : File) (size nmemb : Nat) : Nat × List UInt8 × File :=
  let total := size * nmemb % 2^64
  if total = 0 then (0,[],f)
  else
    let r := read d f total
    (r.1.length / size,r.1,r.2)

def fgetc (f : File) : Int × File :=
  if 0 ≤ f.ungetcBuf then (f.ungetcBuf,{ f with ungetcBuf := -1 })
  else
    match read d f 1 with
    | ([],f) => (-1,{ f with eofFlag := true })
    | (c :: _,f) => (c.toNat,f)

def fgetsFrom : Nat → List UInt8 → File → Option (List UInt8) × File
  | 0, s, f => (some s,f)
  | n+1, s, f =>
    let r := fgetc d f
    if r.1 = -1 then (if s = [] then none else some s,r.2)
    else if r.1 = 10 then (some (s ++ [UInt8.ofNat r.1.toNat]),r.2)
    else fgetsFrom n (s ++ [UInt8.ofNat r.1.toNat]) r.2

def fgets (f : File) (size : Int) : Option (List UInt8) × File :=
  if size ≤ 0 then (none,f) else fgetsFrom d (size - 1).toNat [] f

def ungetc (f : File) (c : Int) : Int × File :=
  if c = -1 then (-1,f)
  else if 0 ≤ f.ungetcBuf then (-1,f)
  else (c,{ f with ungetcBuf := c, eofFlag := false })

def fseek (f : File) (offset whence refresh : Int) : Int × File :=
  let r := lseek d f offset whence refresh
  if r.1 < 0 then (-1,r.2) else (0,{ r.2 with ungetcBuf := -1, eofFlag := false })

def ftell (f : File) : Int × File := lseek d f 0 1 0

def charBytes (c : Int) : List UInt8 := if c = -1 then [] else [UInt8.ofNat c.toNat]

def perform (f : File) : Call → Result × File
  | .fgetc => let r := fgetc d f; (⟨r.1,charBytes r.1⟩,r.2)
  | .fgets size => let r := fgets d f size; (⟨if r.1.isSome then 1 else 0,r.1.getD []⟩,r.2)
  | .fread size nmemb => let r := fread d f size nmemb; (⟨r.1,r.2.1.take (r.1 * size)⟩,r.2.2)
  | .ungetc c => let r := ungetc f c; (⟨r.1,[]⟩,r.2)
  | .fseek offset whence refresh => let r := fseek d f offset whence refresh; (⟨r.1,[]⟩,r.2)
  | .ftell => let r := ftell d f; (⟨r.1,[]⟩,r.2)

def pushed (f : File) : List UInt8 := if 0 ≤ f.ungetcBuf then [UInt8.ofNat f.ungetcBuf.toNat] else []

/-- What is to be delivered from here on. -/
def ahead (f : File) : List UInt8 := pushed f ++ d.contents.drop f.offset

/-- The position of the next byte to be delivered. -/
def position (f : File) : Int := f.offset - (pushed f).length

def Passes (f : File) (bytes : List UInt8) (g : File) : Prop :=
  ahead d f = bytes ++ ahead d g ∧ position g = position f + bytes.length

/-- An input call delivers the next bytes, first of all the one that is pushed back; an `fread` may lose
those of an element that is incomplete at the end of the file. -/
def Consistent (f : File) : Call → Result × File → Prop
  | .fgetc, (r,g) => Passes d f r.bytes g ∧ pushed g = []
  | .fgets size, (r,g) => Passes d f r.bytes g ∧ (1 < size → pushed g = [])
  | .fread size nmemb, (r,g) => (∃ lost, Passes d f (r.bytes ++ lost) g ∧
      (lost ≠ [] → lost.length < size ∧ ahead d g = [])) ∧ (size * nmemb % 2^64 ≠ 0 → pushed g = [])
  | .ungetc c, (r,g) => if c = -1 ∨ pushed f ≠ [] then r.value = -1 ∧ g = f
      else r.value = (UInt8.ofNat c.toNat).toNat ∧ Passes d g [UInt8.ofNat c.toNat] f
  | .fseek offset whence _, (r,g) => r.value = -1 ∧ g = f ∨ r.value = 0 ∧
      ahead d g = d.contents.drop (position g).toNat ∧ position g = origin d (position f) whence + offset
  | .ftell, (r,g) => r.value = position f ∧ g = f

/-- No `fread`, `ftell` or seek from the position while a character is pushed back, no read that ends
inside of an element but at the end of the file, and only bytes are pushed back. -/
def Plain (f : File) : Call → Prop
  | .fread size nmemb => let total := size * nmemb % 2^64
      let remaining := d.contents.length - f.offset
      total = 0 ∨ f.ungetcBuf < 0 ∧ (2^63 ≤ total ∨
        min (min total (d.most f.reads)) remaining % size = 0 ∨ remaining ≤ min total (d.most f.reads))
  | .ungetc c => 0 ≤ f.ungetcBuf ∨ -1 ≤ c ∧ c < 256
  | .fseek offset whence _ =>
      whence = 1 → f.ungetcBuf < 0 ∨ f.offset + offset < 0 ∨ 2^63 ≤ f.offset + offset
  | .ftell => f.ungetcBuf < 0 ∧ f.offset < 2^63
  | _ => True

def Along (P : File → Call → Prop) : List Call → File → Prop
  | [], _ => True
  | c :: cs, f => P f c ∧ Along P cs (perform d f c).2

section
variable {d} {f : File}

theorem pushed_eq_nil : pushed f = [] ↔ f.ungetcBuf < 0 := by
  rw [pushed]
  split <;> simp <;> omega

theorem pushed_nil {n : Nat} {eof : Bool} {k : Nat} : pushed ⟨n,-1,eof,k⟩ = [] := rfl

theorem read_passes (hf : f.ungetcBuf < 0) (n : Nat) : Passes d f (read d f n).1 (read d f n).2 := by
  have hpushed := pushed_eq_nil.mpr hf
  have hbytes : (read d f n).1 <+: d.contents.drop f.offset := by
    rw [read]
    dsimp only
    split
    · exact nil_prefix
    · exact take_prefix _ _
  constructor
  · show pushed f ++ d.contents.drop f.offset = _ ++ (pushed f ++ d.contents.drop (f.offset + _))
    rw [hpushed,← drop_drop]
    exact ( prefix_iff_eq_append.mp hbytes).symm
  show ((f.offset + _ : Nat) : Int) - (pushed f).length = f.offset - (pushed f).length + _
  rw [hpushed,Int.natCast_add]
  rfl

theorem Passes.trans {g e : File} {xs ys : List UInt8} (h : Passes d f xs g) (h' : Passes d g ys e) :
    Passes d f (xs ++ ys) e := by
  refine ⟨by rw [append_assoc,← h'.1,h.1],?_⟩
  rw [h'.2,h.2,length_append]
  omega

theorem fgetc_spec : Passes d f (charBytes (fgetc d f).1) (fgetc d f).2 := by
  unfold fgetc
  split
  · rename_i hbuf
    have hne : f.ungetcBuf ≠ -1 := by omega
    simp [Passes,ahead,position,pushed,charBytes,hbuf,hne]
  rename_i hbuf
  have hone : (read d f 1).1.length ≤ 1 := Nat.le_trans (length_take_le _ _) (Nat.min_le_left _ _)
  have hp := read_passes (d := d) (Int.not_le.mp hbuf) 1
  generalize read d f 1 = r at hone hp
  obtain ⟨_ | ⟨c,_ | _⟩,g⟩ := r
  · exact hp
  · have hne : (c.toNat : Int) ≠ -1 := by omega
    simpa [charBytes,hne] using hp
  · simp at hone

theorem fgetsFrom_spec (f : File) (n : Nat) (s : List UInt8) :
    ∃ more, (fgetsFrom d n s f).1.getD [] = s ++ more ∧ Passes d f more (fgetsFrom d n s f).2 := by
  induction n generalizing s f with
  | zero => exact ⟨[],by simp [fgetsFrom],rfl,by simp [fgetsFrom]⟩
  | succ n ih =>
    have hp := fgetc_spec (d := d) (f := f)
    rw [fgetsFrom]
    generalize fgetc d f = r at hp ⊢
    by_cases hc : r.1 = -1
    · rw [charBytes,if_pos hc] at hp
      rw [if_pos hc]
      refine ⟨[],?_,hp⟩
      split <;> simp [*]
    rw [charBytes,if_neg hc] at hp
    rw [if_neg hc]
    split
    · exact ⟨_,rfl,hp⟩
    obtain ⟨more,hmore,hpm⟩ := ih r.2 (s ++ [UInt8.ofNat r.1.toNat])
    exact ⟨_,hmore.trans (append_assoc _ _ _),hp.trans hpm⟩

theorem fgetc_pushed (f : File) : pushed (fgetc d f).2 = [] := by
  rw [pushed_eq_nil]
  unfold fgetc
  split
  · exact show (-1 : Int) < 0 by decide
  rename_i hbuf
  have hread : (read d f 1).2.ungetcBuf < 0 := Int.not_le.mp hbuf
  generalize read d f 1 = r at hread
  obtain ⟨_ | _,g⟩ := r <;> exact hread

theorem fgetsFrom_pushed {f : File} (n : Nat) (s : List UInt8) (hf : n = 0 → pushed f = []) :
    pushed (fgetsFrom d n s f).2 = [] := by
  induction n generalizing s f with
  | zero => exact hf rfl
  | succ n ih =>
    rw [fgetsFrom]
    split
    · exact fgetc_pushed f
    split
    · exact fgetc_pushed f
    · exact ih _ fun _ => fgetc_pushed f

theorem length_read (n : Nat) : (read d f n).1.length =
    if 2^63 ≤ n then 0 else min (min n (d.most f.reads)) (d.contents.length - f.offset) := by
  rw [read]
  split <;> simp

theorem fread_spec (size nmemb : Nat) : Consistent d f (.fread size nmemb)
    (perform d f (.fread size nmemb)) ↔ Plain d f (.fread size nmemb) := by
  simp only [perform,fread,Consistent,Plain]
  generalize htotal : size * nmemb % 2^64 = total
  by_cases hzero : total = 0
  · rw [if_pos hzero]
    exact iff_of_true ⟨⟨[],⟨by simp,by simp⟩,fun hne => absurd rfl hne⟩,fun hne => absurd hzero hne⟩
      (.inl hzero)
  have hsize : 0 < size := Nat.pos_of_ne_zero fun hz => hzero (by simp [← htotal,hz])
  rw [if_neg hzero]
  simp only [hzero,false_or,ne_eq,not_false_eq_true,forall_const]
  have hpushed : pushed (read d f total).2 = [] ↔ f.ungetcBuf < 0 := pushed_eq_nil
  rw [hpushed,and_comm]
  refine and_congr_right fun hneg => ?_
  have hp := read_passes (d := d) hneg total
  have hlen := length_read (d := d) (f := f) total
  have hahead : ahead d (read d f total).2 = [] ↔
      d.contents.length ≤ f.offset + (read d f total).1.length := by
    rw [ahead,hpushed.mpr hneg,nil_append,drop_eq_nil_iff]
    rfl
  generalize read d f total = r at hp hlen hahead
  have hrest : r.1.length - r.1.length / size * size = r.1.length % size :=
    Nat.sub_eq_of_eq_add' (Nat.div_add_mod' _ _).symm
  have hlost : ∀ lost, Passes d f (r.1.take (r.1.length / size * size) ++ lost) r.2 →
      lost = r.1.drop (r.1.length / size * size) := by
    intro lost h
    have h' := h.1.symm.trans hp.1
    rw [append_left_inj] at h'
    exact append_cancel_left (h'.trans (take_append_drop _ _).symm)
  have hmod := Nat.mod_lt r.1.length hsize
  have hwhole : (∃ lost, Passes d f (r.1.take (r.1.length / size * size) ++ lost) r.2 ∧
      (¬lost = [] → lost.length < size ∧ ahead d r.2 = [])) ↔
      r.1.length % size = 0 ∨ d.contents.length ≤ f.offset + r.1.length := by
    constructor
    · rintro ⟨lost,hpass,hend⟩
      rw [hlost lost hpass,← ne_eq,← length_pos_iff,length_drop,hrest,hahead] at hend
      obtain hz | hpos := Nat.eq_zero_or_pos (r.1.length % size)
      · exact .inl hz
      · exact .inr (hend hpos).2
    · intro h
      refine ⟨_,by rwa [take_append_drop],fun hne => ?_⟩
      rw [← ne_eq,← length_pos_iff,length_drop,hrest] at hne
      rw [length_drop,hrest,hahead]
      exact ⟨hmod,h.resolve_left (Nat.pos_iff_ne_zero.mp hne)⟩
  rw [hwhole,hlen]
  split
  · rename_i hlong
    exact iff_of_true (.inl (Nat.zero_mod _)) (.inl hlong)
  · rename_i hlong
    simp only [hlong,false_or]
    exact or_congr_right (by omega)

theorem origin_cur (here : Int) : origin d here 1 = here := rfl

theorem lseek_eq (f : File) (offset whence refresh : Int) : lseek d f offset whence refresh =
    let target := origin d f.offset whence + offset
    if (whence = 0 ∨ whence = 1 ∨ whence = 2 ∧ 0 ≤ refresh) ∧ 0 ≤ target ∧ target < 2^63 then
      (target,{ f with offset := target.toNat }) else (-1,f) := by
  rw [lseek,sysLseek]
  dsimp only
  repeat' split
  all_goals first | rfl | omega

theorem perform_spec (c : Call) : Consistent d f c (perform d f c) ↔ Plain d f c := by
  cases c with
  | fgetc => exact iff_of_true ⟨fgetc_spec,fgetc_pushed f⟩ trivial
  | fgets size =>
    simp only [perform,Consistent,fgets,Plain,iff_true]
    split
    · exact ⟨⟨rfl,by simp⟩,fun hsize => by omega⟩
    obtain ⟨more,hmore,hp⟩ := fgetsFrom_spec (d := d) f (size - 1).toNat []
    rw [hmore]
    exact ⟨hp,fun hsize => fgetsFrom_pushed _ _ fun hzero => by omega⟩
  | fread size nmemb => exact fread_spec size nmemb
  | ungetc c =>
    simp only [perform,Consistent,ungetc,Plain]
    by_cases hbuf : 0 ≤ f.ungetcBuf
    · simp [hbuf,pushed]
    by_cases hc : c = -1
    · simp [hc]
    rw [if_neg hc,if_neg hbuf,if_neg (by simp [hc,pushed,hbuf])]
    constructor
    · rintro ⟨hval,-⟩
      have := (UInt8.ofNat c.toNat).toNat_lt
      simp only at hval
      omega
    · intro h
      have hpos : 0 ≤ c := by omega
      have hbyte : c % 256 = c := Int.emod_eq_of_lt hpos (by omega)
      simp [Passes,ahead,position,pushed,hpos,hbuf,hbyte]
  | fseek offset whence refresh =>
    have hseek := lseek_eq (d := d) f offset whence refresh
    simp only at hseek
    simp only [perform,Consistent,fseek,Plain]
    split at hseek
    · rename_i hok
      rw [hseek,if_neg (Int.not_lt.mpr hok.2.1)]
      simp only [ahead,position,pushed_nil,length_nil,nil_append,Int.toNat_of_nonneg hok.2.1]
      by_cases hw : whence = 1
      · subst hw
        have hpushed := pushed_eq_nil (f := f)
        simp only [origin_cur] at hok ⊢
        simp
        rw [← length_eq_zero_iff] at hpushed
        omega
      · simp [hw,origin]
    · rename_i hfail
      rw [hseek,if_pos (show (-1 : Int) < 0 by decide)]
      refine iff_of_true (.inl ⟨rfl,rfl⟩) fun hw => ?_
      subst hw
      rw [origin_cur] at hfail
      omega
  | ftell =>
    have hseek := lseek_eq (d := d) f 0 1 0
    have hpushed := pushed_eq_nil (f := f)
    rw [← length_eq_zero_iff] at hpushed
    simp only [origin_cur] at hseek
    simp only [perform,Consistent,ftell,Plain,position]
    split at hseek
    · rename_i hok
      rw [hseek]
      simp
      omega
    · rename_i hfail
      have hone : (pushed f).length ≤ 1 := by
        rw [pushed]
        split <;> simp
      rw [hseek]
      simp at hfail ⊢
      omega

end

/-- Calls on a stream, in any order and with any short reads, deliver the bytes from its position on
exactly if all of them are plain. -/
theorem stdio_input (f : File) (calls : List Call) :
    Along d (fun f c => Consistent d f c (perform d f c)) calls f ↔ Along d (Plain d) calls f := by
  induction calls generalizing f with
  | nil => exact Iff.rfl
  | cons c cs ih => exact and_congr (perform_spec c) (ih _)

theorem stdio_input_pushback : Along ⟨[7,8],fun _ => 1⟩
    (fun f c => Consistent ⟨[7,8],fun _ => 1⟩ f c (perform ⟨[7,8],fun _ => 1⟩ f c))
    [.fgetc,.ungetc 7,.fgetc,.fread 1 4,.ftell] (fdopen 0) :=
  (stdio_input _ (fdopen 0) _).mpr
    ⟨trivial,by unfold Plain; decide,trivial,by unfold Plain; decide,by unfold Plain; decide,trivial⟩

/-- `fread` passes over a character that is pushed back, and `ftell` does not count it. -/
theorem fread_skips_pushback : let d : Disk := ⟨[7,8],fun _ => 9⟩
    let f := (perform d (perform d (fdopen 0) .fgetc).2 (.ungetc 7)).2
    ahead d f = [7,8] ∧ (perform d f (.fread 1 1)).1.bytes = [8] ∧
      position f = 0 ∧ (perform d f .ftell).1.value = 1 := by
  decide

end Rucux.Libc.Stdio
