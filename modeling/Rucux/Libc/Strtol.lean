import Mathlib.Algebra.Order.Ring.Nat
import Mathlib.Data.List.Basic

/-! `strtoll` and `strtoull`: the value, and what `endptr` leads to. -/

namespace Rucux.Libc.Strtol
open List

def skipWs (s : List UInt8) : List UInt8 :=
  s.dropWhile fun c => c == 32 || c == 9 || c == 10 || c == 13 || c == 12 || c == 11

def sign (s : List UInt8) : Bool × List UInt8 :=
  if s.head? = some 43 then (false,s.drop 1) else if s.head? = some 45 then (true,s.drop 1) else (false,s)

def isX (s : List UInt8) : Prop := s.head? = some 120 ∨ s.head? = some 88

instance (s : List UInt8) : Decidable (isX s) := inferInstanceAs (Decidable (_ ∨ _))

def detectBase (s : List UInt8) (base : Nat) : Nat × List UInt8 :=
  if base = 0 then
    if s.head? = some 48 then
      if isX (s.drop 1) then (16,s.drop 2) else (8,s.drop 1)
    else (10,s)
  else if base = 16 ∧ s.head? = some 48 ∧ isX (s.drop 1) then (base,s.drop 2)
  else (base,s)

def digitVal (c : UInt8) (base : Nat) : Option Nat :=
  (if 48 ≤ c ∧ c ≤ 57 then some (c.toNat - 48)
  else if 97 ≤ c ∧ c ≤ 122 then some (c.toNat - 87)
  else if 65 ≤ c ∧ c ≤ 90 then some (c.toNat - 55)
  else none).filter (· < base)

/-- The loop of both functions: the result, whether there was a digit, and where it ends. -/
def scan (add : Nat → Nat → Nat) (base : Nat) : Nat → Bool → List UInt8 → Nat × Bool × List UInt8
  | result, any, [] => (result,any,[])
  | result, any, c :: s =>
    match digitVal c base with
    | none => (result,any,c :: s)
    | some d => scan add base (add result d) true s

def strtoull (nptr : List UInt8) (base : Nat) : Nat × List UInt8 :=
  let (neg,s) := sign (skipWs nptr)
  let (base,s) := detectBase s base
  let (result,any,s) := scan (fun r d => if (2^64 - 1 - d) / base < r then 2^64 - 1 else r * base + d) base 0 false s
  (if neg then (2^64 - result) % 2^64 else result,if any then s else nptr)

def strtoll (nptr : List UInt8) (base : Nat) : Int × List UInt8 :=
  let (neg,s) := sign (skipWs nptr)
  let (base,s) := detectBase s base
  let (result,any,s) := scan (fun r d => (r * base + d) % 2^64) base 0 false s
  (if neg then if 2^63 < result then -2^63 else -result else if 2^63 ≤ result then 2^63 - 1 else result,
    if any then s else nptr)

def digits (base : Nat) : List UInt8 → List Nat
  | [] => []
  | c :: s => (digitVal c base).elim [] fun d => d :: digits base s

/-- Where the digits begin, and their base: `0x` counts only before a hexadecimal digit. -/
def subject (s : List UInt8) (base : Nat) : Nat × List UInt8 :=
  if (base = 0 ∨ base = 16) ∧ s.head? = some 48 ∧ isX (s.drop 1) ∧ digits 16 (s.drop 2) ≠ [] then (16,s.drop 2)
  else (if base ≠ 0 then base else if s.head? = some 48 then 8 else 10,s)

/-- The number that digits make, and what follows them. -/
def reading (p : Nat × List UInt8) : Option (Nat × List UInt8) :=
  if digits p.1 p.2 = [] then none
  else some ((digits p.1 p.2).foldl (fun v d => v * p.1 + d) 0,p.2.drop (digits p.1 p.2).length)

/-- A zero that is taken for a sign of the base, with no digit behind it. -/
def Bare (s : List UInt8) (base : Nat) : Prop :=
  s.head? = some 48 ∧ digits (detectBase s base).1 (detectBase s base).2 = []

theorem digitVal_lt {c : UInt8} {base d : Nat} (h : digitVal c base = some d) : d < 36 := by
  obtain ⟨h,-⟩ := Option.filter_eq_some_iff.mp h
  simp only [UInt8.le_iff_toNat_le] at h
  grind

/-- What the loop computes represents the number read so far when every round does. -/
theorem scan_eq (add : Nat → Nat → Nat) (f : Nat → Nat) {base : Nat}
    (hadd : ∀ v d, d < 36 → add (f v) d = f (v * base + d)) (any : Bool) (s : List UInt8) (v : Nat) :
    scan add base (f v) any s = (f ((digits base s).foldl (fun v d => v * base + d) v),
      any || !(digits base s).isEmpty,s.drop (digits base s).length) := by
  induction s generalizing v any with
  | nil => simp [scan,digits]
  | cons c s ih =>
    rw [scan,digits]
    cases hc : digitVal c base with
    | none => simp
    | some d =>
      dsimp only
      rw [hadd v d (digitVal_lt hc),ih true]
      simp

/-- The check before the multiplication keeps the result at its limit. -/
theorem saturate {b d : Nat} (hb : 0 < b) (v : Nat) (hd : d < 36) :
    (if (2^64 - 1 - d) / b < min v (2^64 - 1) then 2^64 - 1 else min v (2^64 - 1) * b + d) =
      min (v * b + d) (2^64 - 1) := by
  have hv : v ≤ v * b := Nat.le_mul_of_pos_right v hb
  by_cases hfits : v ≤ 2^64 - 1
  · rw [Nat.min_eq_left hfits]
    split
    · have := (Nat.div_lt_iff_lt_mul hb).mp ‹_›
      omega
    · have := mt (Nat.div_lt_iff_lt_mul hb).mpr ‹_›
      omega
  rw [Nat.min_eq_right (by omega),Nat.min_eq_right (by omega)]
  split
  · rfl
  · have := mt (Nat.div_lt_iff_lt_mul hb).mpr ‹_›
    have : 2^64 - 1 ≤ (2^64 - 1) * b := Nat.le_mul_of_pos_right _ hb
    omega

theorem detectBase_pos (s : List UInt8) (base : Nat) : 0 < (detectBase s base).1 := by
  unfold detectBase
  repeat' split
  all_goals simp; try omega

theorem reading_detectBase {s : List UInt8} {base : Nat} (h : ¬Bare s base) :
    reading (detectBase s base) = reading (subject s base) := by
  by_cases hzero : s.head? = some 48
  swap
  · by_cases hb : base = 0 <;> simp [detectBase,subject,hzero,hb]
  obtain ⟨t,rfl⟩ := head?_eq_some_iff.mp hzero
  have hdigits : digits (detectBase (48 :: t) base).1 (detectBase (48 :: t) base).2 ≠ [] := fun he => h ⟨hzero,he⟩
  by_cases hx : isX t
  · by_cases hb : base = 0 ∨ base = 16
    · have hcode : detectBase (48 :: t) base = (16,t.drop 1) := by
        rcases hb with hb | hb <;> simp [detectBase,hb,hx]
      rw [hcode] at hdigits ⊢
      rw [subject,if_pos ⟨hb,hzero,hx,hdigits⟩]
      rfl
    · rw [not_or] at hb
      simp [detectBase,subject,hb]
  by_cases hb : base = 0
  · have hcode : detectBase (48 :: t) base = (8,t) := by simp [detectBase,hb,hx]
    rw [hcode] at hdigits ⊢
    simp only [ne_eq] at hdigits
    have hzero : digits 8 (48 :: t) = 0 :: digits 8 t := rfl
    simp [subject,hb,hx,reading,hzero,hdigits]
  · simp [detectBase,subject,hb,hx]

/-- The result of either function before its sign is looked at, and where it ends. -/
theorem strtoll_eq (nptr : List UInt8) (base : Nat) :
    let p := detectBase (sign (skipWs nptr)).2 base
    let m := (digits p.1 p.2).foldl (fun v d => v * p.1 + d) 0
    let stop := if digits p.1 p.2 = [] then nptr else p.2.drop (digits p.1 p.2).length
    strtoll nptr base = (if (sign (skipWs nptr)).1 then if 2^63 < m % 2^64 then -2^63 else -((m % 2^64 : Nat) : Int)
      else if 2^63 ≤ m % 2^64 then 2^63 - 1 else (m % 2^64 : Nat),stop) ∧
    strtoull nptr base =
      (if (sign (skipWs nptr)).1 then (2^64 - min m (2^64 - 1)) % 2^64 else min m (2^64 - 1),stop) := by
  unfold strtoll strtoull
  have hb := detectBase_pos (sign (skipWs nptr)).2 base
  generalize sign (skipWs nptr) = p at hb ⊢
  obtain ⟨neg,s⟩ := p
  dsimp only at hb ⊢
  generalize detectBase s base = q at hb ⊢
  obtain ⟨b,t⟩ := q
  have hmod : ∀ v d, d < 36 → (v % 2^64 * b + d) % 2^64 = (v * b + d) % 2^64 := fun v d _ => by
    rw [Nat.add_mod,Nat.mod_mul_mod,← Nat.add_mod]
  have hscan := scan_eq (fun r d => (r * b + d) % 2^64) (· % 2^64) hmod false t 0
  have hscan' := scan_eq (fun r d => if (2^64 - 1 - d) / b < r then 2^64 - 1 else r * b + d) (min · (2^64 - 1))
    (fun v d hd => saturate hb v hd) false t 0
  simp only [Nat.zero_mod,Nat.zero_min] at hscan hscan'
  dsimp only
  rw [hscan,hscan']
  constructor
  all_goals
    congr 1
    by_cases hnone : digits b t = [] <;> simp [hnone]

/-- Both return what the numeral says and end behind it. -/
def Exact (nptr : List UInt8) (base : Nat) : Prop :=
  match reading (subject (sign (skipWs nptr)).2 base) with
  | none => strtoll nptr base = (0,nptr) ∧ strtoull nptr base = (0,nptr)
  | some (m,rest) =>
    let v : Int := if (sign (skipWs nptr)).1 then -m else m
    strtoll nptr base = (max (-2^63) (min v (2^63 - 1)),rest) ∧
      strtoull nptr base = (if m < 2^64 then (v % 2^64).toNat else 2^64 - 1,rest)

theorem length_sign (nptr : List UInt8) : (sign (skipWs nptr)).2.length ≤ nptr.length := by
  have := (dropWhile_sublist (l := nptr)
    fun c => c == 32 || c == 9 || c == 10 || c == 13 || c == 12 || c == 11).length_le
  unfold sign skipWs
  repeat' split
  all_goals
    simp only [length_drop]
    omega

/-- The zero is a numeral of its own. -/
theorem Bare.reading {s : List UInt8} {base : Nat} (h : Bare s base) :
    reading (subject s base) = some (0,s.drop 1) := by
  obtain ⟨hzero,hdigits⟩ := h
  obtain ⟨t,rfl⟩ := head?_eq_some_iff.mp hzero
  have hx : isX t → ∀ b ≤ 16, digits b t = [] := by
    intro hx b hb
    cases t with
    | nil => rfl
    | cons c t => rcases hx with hx | hx <;> cases hx <;> simp [digits,digitVal,Option.filter,show ¬33 < b by omega]
  -- no sign of the base is left, and the digits end behind the zero
  have hsubject : ∃ b, 0 < b ∧ subject (48 :: t) base = (b,48 :: t) ∧ digits b t = [] := by
    by_cases ht : isX t
    · by_cases hb : base = 0 ∨ base = 16
      · have hcode : detectBase (48 :: t) base = (16,t.drop 1) := by rcases hb with hb | hb <;> simp [detectBase,hb,ht]
        rw [hcode] at hdigits
        refine ⟨if base ≠ 0 then base else 8,by split <;> omega,?_,hx ht _ (by split <;> omega)⟩
        rw [subject,if_neg fun h => h.2.2.2 hdigits]
        simp
      · simp_all [detectBase,digits,digitVal,Option.filter]
        split at hdigits <;> simp_all
    by_cases hb : base = 0
    · have hcode : detectBase (48 :: t) base = (8,t) := by simp [detectBase,hb,ht]
      rw [hcode] at hdigits
      exact ⟨8,by decide,by simp [subject,hb,ht],hdigits⟩
    · simp_all [detectBase,digits,digitVal,Option.filter]
      split at hdigits <;> simp_all
  obtain ⟨b,hb,hsubject,hdigits⟩ := hsubject
  simp [hsubject,Strtol.reading,digits,digitVal,Option.filter,hb,hdigits]

/-- Both are exact unless a zero is taken for a sign of the base alone, or the number does not fit into 64 bits and
has a sign or wraps to one below the limit. -/
theorem strtol_exact (nptr : List UInt8) (base : Nat) : Exact nptr base ↔ ¬Bare (sign (skipWs nptr)).2 base ∧
    ∀ r ∈ reading (subject (sign (skipWs nptr)).2 base),
      r.1 < 2^64 ∨ (sign (skipWs nptr)).1 = false ∧ 2^63 - 1 ≤ r.1 % 2^64 := by
  obtain ⟨hll,hull⟩ := strtoll_eq nptr base
  by_cases hbare : Bare (sign (skipWs nptr)).2 base
  · refine iff_of_false (fun h => ?_) (fun h => h.1 hbare)
    rw [Exact,hbare.reading] at h
    have hstop := congrArg Prod.snd (hll.symm.trans h.1)
    rw [if_pos hbare.2] at hstop
    have hle := length_sign nptr
    have hlen := congrArg length hstop
    have hne : (sign (skipWs nptr)).2 ≠ [] := fun he => by simpa [he] using hbare.1
    have hpos := length_pos_iff.mpr hne
    simp only [length_drop] at hlen
    omega
  rw [Exact,← reading_detectBase hbare,hll,hull,Strtol.reading]
  generalize sign (skipWs nptr) = p at hbare ⊢
  obtain ⟨neg,s⟩ := p
  dsimp only
  generalize detectBase s base = q
  obtain ⟨b,t⟩ := q
  dsimp only
  by_cases hnone : digits b t = []
  · simp [hnone,hbare]
  generalize (digits b t).foldl (fun v d => v * b + d) 0 = m
  simp only [if_neg hnone,hbare,not_false_eq_true,true_and,Option.mem_def,Option.some.injEq,forall_eq',Prod.mk.injEq,
    and_true]
  cases neg
  all_goals
    simp only [Bool.false_eq_true,if_false,if_true,true_and,Bool.true_eq_false,false_and,or_false]
    repeat' split
    all_goals omega

theorem strtol_exact_hex : Exact [32,45,48,120,49,70,103] 0 ∧ strtoll [32,45,48,120,49,70,103] 0 = (-31,[103]) :=
  ⟨(strtol_exact _ 0).mpr ⟨by unfold Bare; decide,by decide⟩,by decide⟩

/-- 2^64 + 1 wraps before it is compared, and the zero of `0x` is not read. -/
theorem strtoll_wraps :
    strtoll [49,56,52,52,54,55,52,52,48,55,51,55,48,57,53,53,49,54,49,55] 10 = (1,[]) ∧
      strtoll [48,120,103] 16 = (0,[48,120,103]) ∧ reading (subject [48,120,103] 16) = some (0,[120,103]) := by
  decide

end Rucux.Libc.Strtol
