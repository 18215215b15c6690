import Mathlib.Algebra.Order.Ring.Nat
import Mathlib.Data.List.Basic

/-! Texts of IPv4 addresses and the names in DNS queries. -/

namespace Rucux.Libc
open List

def isDigit (c : UInt8) : Bool := 48 ≤ c && c ≤ 57

/-- Greater than 255 as an `int`. -/
def tooLarge (n : Nat) : Bool := 255 < n && n < 2^31

/-- The loop of `parse_ipv4`, whose `int` wraps. The address is in host order. -/
def parseIpv4From (a b c field val : Nat) : List UInt8 → Option Nat
  | [] =>
    if field ≠ 3 then none
    else if tooLarge a || tooLarge b || tooLarge c || tooLarge val then none
    else some ((a * 2^24 ||| b * 2^16 ||| c * 2^8 ||| val) % 2^32)
  | ch :: s =>
    if isDigit ch then parseIpv4From a b c field ((val * 10 + (ch.toNat - 48)) % 2^32) s
    else if ch = 46 then
      parseIpv4From (if field = 0 then val else a) (if field = 1 then val else b) (if field = 2 then val else c)
        (field + 1) 0 s
    else none

def parseIpv4 (s : List UInt8) : Option Nat := parseIpv4From 0 0 0 0 0 s

def inetPtonFrom (addr dots val : Nat) (any : Bool) : List UInt8 → Option Nat
  | [] => if !any || dots ≠ 3 then none else some ((addr * 256 ||| val) % 2^32)
  | ch :: s =>
    if isDigit ch then
      if 255 < val * 10 + (ch.toNat - 48) then none
      else inetPtonFrom addr dots (val * 10 + (ch.toNat - 48)) true s
    else if ch = 46 then
      if !any || 3 ≤ dots then none else inetPtonFrom ((addr * 256 ||| val) % 2^32) (dots + 1) 0 false s
    else none

def inetPton (s : List UInt8) : Option Nat := inetPtonFrom 0 0 0 false s

def digit (n : Nat) : UInt8 := UInt8.ofNat (48 + n)

def byteText (v : Nat) : List UInt8 :=
  if 100 ≤ v then [digit (v / 100),digit (v % 100 / 10),digit (v % 100 % 10)]
  else if 10 ≤ v then [digit (v / 10),digit (v % 10)]
  else [digit v]

def inetNtop (addr : Nat) : List UInt8 :=
  byteText (addr / 2^24 % 256) ++ 46 :: byteText (addr / 2^16 % 256) ++ 46 :: byteText (addr / 2^8 % 256) ++
    46 :: byteText (addr % 256)

/-- The fields of a text, the first of which begins with `f`. -/
def fields (f : List UInt8) : List UInt8 → List (List UInt8)
  | [] => [f]
  | ch :: s => if ch = 46 then f :: fields [] s else fields (f ++ [ch]) s

def value (f : List UInt8) : Nat := f.foldl (fun v ch => v * 10 + (ch.toNat - 48)) 0

/-- Only digits, and exactly three dots. -/
def Dotted (s : List UInt8) : Prop := (∀ ch ∈ s, isDigit ch ∨ ch = 46) ∧ (fields [] s).length = 4

theorem or_eq_add {x y k : Nat} (hx : x % 2^k = 0) (hy : y < 2^k) : x ||| y = x + y := by
  have hmul : x = 2^k * (x / 2^k) := by
    have := Nat.div_add_mod x (2^k)
    omega
  rw [hmul]
  exact (Nat.two_pow_add_eq_or_of_lt hy _).symm

theorem shift_in {addr val : Nat} (ha : addr < 2^24) (hv : val < 256) :
    (addr * 256 ||| val) % 2^32 = addr * 256 + val := by
  rw [or_eq_add (k := 8) (by omega) (by omega)]
  omega

/-- The fields so far and the address that they make. -/
def Shifted (a b c field addr : Nat) : Prop :=
  a < 256 ∧ b < 256 ∧ c < 256 ∧ (field = 0 ∧ addr = 0 ∨ field = 1 ∧ addr = a ∨ field = 2 ∧ addr = a * 256 + b ∨
    field = 3 ∧ addr = a * 65536 + b * 256 + c)

section
variable {a b c addr val : Nat}

theorem Shifted.dot {field : Nat} (h : Shifted a b c field addr) (hv : val < 256) (hf : field < 3) :
    Shifted (if field = 0 then val else a) (if field = 1 then val else b) (if field = 2 then val else c) (field + 1)
      ((addr * 256 ||| val) % 2^32) := by
  obtain ⟨ha,hb,hc,h⟩ := h
  rw [shift_in (by omega) hv]
  unfold Shifted
  refine ⟨?_,?_,?_,?_⟩
  all_goals
    repeat' split
    all_goals omega

theorem Shifted.ends (h : Shifted a b c 3 addr) (hv : val < 256) :
    parseIpv4From a b c 3 val [] = some ((addr * 256 ||| val) % 2^32) := by
  obtain ⟨ha,hb,hc,h⟩ := h
  have hsmall : ∀ n < 256, tooLarge n = false := fun n hn => by
    simp only [tooLarge,Bool.and_eq_false_iff,decide_eq_false_iff_not]
    omega
  rw [parseIpv4From,if_neg (by simp),hsmall a ha,hsmall b hb,hsmall c hc,hsmall val hv,if_neg (by simp),
    shift_in (by omega) hv,or_eq_add (x := a * 2^24) (k := 24) (by omega) (by omega),
    or_eq_add (x := a * 2^24 + b * 2^16) (k := 16) (by omega) (by omega),
    or_eq_add (x := a * 2^24 + b * 2^16 + c * 2^8) (k := 8) (by omega) (by omega)]
  congr 1
  omega

end

theorem value_concat (f : List UInt8) (ch : UInt8) : value (f ++ [ch]) = value f * 10 + (ch.toNat - 48) := by
  simp [value]

theorem length_fields_pos (f s : List UInt8) : 0 < (fields f s).length := by
  induction s generalizing f with
  | nil => exact Nat.one_pos
  | cons ch s ih =>
    rw [fields]
    split
    · exact Nat.succ_pos _
    · exact ih _

/-- A field is only longer than what was read of it. -/
theorem exists_field_ge (f s : List UInt8) : ∃ g ∈ fields f s, value f ≤ value g := by
  induction s generalizing f with
  | nil => exact ⟨f,mem_cons_self,Nat.le_refl _⟩
  | cons ch s ih =>
    rw [fields]
    split
    · exact ⟨f,mem_cons_self,Nat.le_refl _⟩
    · obtain ⟨g,hg,hle⟩ := ih (f ++ [ch])
      rw [value_concat] at hle
      exact ⟨g,hg,by omega⟩

theorem inetPtonFrom_isSome (addr field : Nat) (f s : List UInt8) (hv : value f ≤ 255) :
    (inetPtonFrom addr field (value f) (!f.isEmpty) s).isSome ↔ (∀ ch ∈ s, isDigit ch ∨ ch = 46) ∧
      field + (fields f s).length = 4 ∧ ∀ g ∈ fields f s, g ≠ [] ∧ value g ≤ 255 := by
  induction s generalizing addr field f with
  | nil => grind [inetPtonFrom,fields]
  | cons ch s ih =>
    rw [inetPtonFrom,fields]
    by_cases hd : isDigit ch = true
    · have hdot : ch ≠ 46 := fun he => by rw [he] at hd; cases hd
      rw [if_pos hd,if_neg hdot,← value_concat]
      by_cases hbig : 255 < value (f ++ [ch])
      · obtain ⟨g,hg,hle⟩ := exists_field_ge (f ++ [ch]) s
        grind
      · have hnext := ih addr field (f ++ [ch]) (Nat.le_of_not_lt hbig)
        have hany : (!(f ++ [ch]).isEmpty) = true := by simp
        rw [hany] at hnext
        rw [if_neg hbig,hnext,forall_mem_cons]
        simp [hd]
    by_cases hdot : ch = 46
    · have hpos := length_fields_pos [] s
      have hnext := ih ((addr * 256 ||| value f) % 2^32) (field + 1) [] (Nat.zero_le _)
      have hempty : value [] = 0 := rfl
      rw [if_neg hd,if_pos hdot,if_pos hdot,length_cons,forall_mem_cons,forall_mem_cons]
      grind
    · grind

theorem parseIpv4From_isSome (a b c field : Nat) (f s : List UInt8) (ha : field = 0 → a = 0)
    (hb : field ≤ 1 → b = 0) (hc : field ≤ 2 → c = 0) :
    (parseIpv4From a b c field (value f % 2^32) s).isSome ↔ (∀ ch ∈ s, isDigit ch ∨ ch = 46) ∧
      field + (fields f s).length = 4 ∧ (tooLarge a || tooLarge b || tooLarge c) = false ∧
      ∀ g ∈ fields f s, tooLarge (value g % 2^32) = false := by
  induction s generalizing a b c field f with
  | nil => grind [parseIpv4From,fields]
  | cons ch s ih =>
    rw [parseIpv4From,fields]
    by_cases hd : isDigit ch = true
    · have hdot : ch ≠ 46 := fun he => by rw [he] at hd; cases hd
      have hval : (value f % 2^32 * 10 + (ch.toNat - 48)) % 2^32 = value (f ++ [ch]) % 2^32 := by
        rw [value_concat]
        omega
      rw [if_pos hd,if_neg hdot,hval,ih _ _ _ _ _ ha hb hc,forall_mem_cons]
      simp [hd]
    by_cases hdot : ch = 46
    · have hpos := length_fields_pos [] s
      have hzero : tooLarge 0 = false := by decide
      have hnext := ih (if field = 0 then value f % 2^32 else a) (if field = 1 then value f % 2^32 else b)
        (if field = 2 then value f % 2^32 else c) (field + 1) [] (by omega) (by grind) (by grind)
      have hempty : value [] % 2^32 = 0 := rfl
      rw [hempty] at hnext
      rw [if_neg hd,if_pos hdot,if_pos hdot,length_cons,forall_mem_cons,forall_mem_cons,hnext]
      -- the field that ends here is where its value goes
      obtain rfl | rfl | rfl | h3 : field = 0 ∨ field = 1 ∨ field = 2 ∨ 3 ≤ field := by omega
      all_goals grind
    · grind

theorem parseIpv4_eq_inetPton {a b c field addr val : Nat} {any : Bool} {s : List UInt8}
    (h : Shifted a b c field addr) (hv : val < 256) (hs : inetPtonFrom addr field val any s ≠ none) :
    parseIpv4From a b c field val s = inetPtonFrom addr field val any s := by
  induction s generalizing a b c field addr val any with
  | nil =>
    rw [inetPtonFrom] at hs ⊢
    by_cases hend : (!any || decide (field ≠ 3)) = true
    · rw [if_pos hend] at hs
      exact absurd rfl hs
    rw [if_neg hend]
    obtain rfl : field = 3 := by
      simp only [Bool.or_eq_true,decide_eq_true_eq,not_or,not_not] at hend
      exact hend.2
    exact h.ends hv
  | cons ch s ih =>
    rw [inetPtonFrom] at hs ⊢
    rw [parseIpv4From]
    by_cases hd : isDigit ch = true
    · simp only [if_pos hd] at hs ⊢
      by_cases hbig : 255 < val * 10 + (ch.toNat - 48)
      · exact absurd (if_pos hbig) hs
      rw [if_neg hbig] at hs ⊢
      rw [Nat.mod_eq_of_lt (by omega)]
      exact ih h (by omega) hs
    simp only [if_neg hd] at hs ⊢
    by_cases hdot : ch = 46
    · simp only [if_pos hdot] at hs ⊢
      by_cases hgo : (!any || decide (3 ≤ field)) = true
      · exact absurd (if_pos hgo) hs
      rw [if_neg hgo] at hs ⊢
      simp only [Bool.or_eq_true,decide_eq_true_eq,not_or] at hgo
      exact ih (h.dot hv (Nat.lt_of_not_le hgo.2)) (by decide) hs
    · rw [if_neg hdot,if_neg hdot]

theorem inetPton_digit {addr dots val n : Nat} {any : Bool} {s : List UInt8} (hn : n ≤ 9) (hv : val * 10 + n ≤ 255) :
    inetPtonFrom addr dots val any (digit n :: s) = inetPtonFrom addr dots (val * 10 + n) true s := by
  have hch : (digit n).toNat = 48 + n := by
    simp only [digit,UInt8.toNat_ofNat']
    omega
  have hd : isDigit (digit n) = true := by
    simp only [isDigit,Bool.and_eq_true,decide_eq_true_eq,UInt8.le_iff_toNat_le,hch]
    exact ⟨by simp,by simp; omega⟩
  rw [inetPtonFrom,if_pos hd,hch,Nat.add_sub_cancel_left,if_neg (by omega)]

theorem inetPton_byteText {addr dots v : Nat} (hv : v < 256) (s : List UInt8) :
    inetPtonFrom addr dots 0 false (byteText v ++ s) = inetPtonFrom addr dots v true s := by
  unfold byteText
  split
  · simp only [cons_append,nil_append]
    rw [inetPton_digit (by omega) (by omega),inetPton_digit (by omega) (by omega),inetPton_digit (by omega) (by omega)]
    congr 1
    omega
  split
  · simp only [cons_append,nil_append]
    rw [inetPton_digit (by omega) (by omega),inetPton_digit (by omega) (by omega)]
    congr 1
    omega
  · simp only [cons_append,nil_append]
    rw [inetPton_digit (by omega) (by omega),Nat.zero_mul,Nat.zero_add]

theorem inetPton_inetNtop {addr : Nat} (h : addr < 2^32) : inetPton (inetNtop addr) = some addr := by
  have hdot : ∀ {x dots val : Nat} {s : List UInt8}, dots < 3 →
      inetPtonFrom x dots val true (46 :: s) = inetPtonFrom ((x * 256 ||| val) % 2^32) (dots + 1) 0 false s := by
    intro x dots val s hd
    rw [inetPtonFrom,if_neg (by decide),if_pos rfl,if_neg (by simp; omega)]
  rw [inetPton,inetNtop]
  simp only [append_assoc,cons_append]
  rw [inetPton_byteText (Nat.mod_lt _ (by decide)),hdot (by decide),shift_in (by decide) (Nat.mod_lt _ (by decide)),
    inetPton_byteText (Nat.mod_lt _ (by decide)),hdot (by decide),shift_in (by omega) (Nat.mod_lt _ (by decide)),
    inetPton_byteText (Nat.mod_lt _ (by decide)),hdot (by decide),shift_in (by omega) (Nat.mod_lt _ (by decide)),
    ← append_nil (byteText (addr % 256)),inetPton_byteText (Nat.mod_lt _ (by decide)),inetPtonFrom,if_neg (by decide),
    shift_in (by omega) (Nat.mod_lt _ (by decide))]
  congr 1
  omega

/-- The two disagree exactly on the texts of four fields of which one is empty or too large, and none, as the `int` that
`parse_ipv4` makes of it, is seen to be; and both read back what `inet_ntop` writes. -/
theorem ipv4_parsers_agree (s : List UInt8) (addr : Nat) :
    (parseIpv4 s = inetPton s ↔ ¬(Dotted s ∧ (∀ f ∈ fields [] s, tooLarge (value f % 2^32) = false) ∧
      ∃ f ∈ fields [] s, f = [] ∨ 255 < value f)) ∧
    (addr < 2^32 → parseIpv4 (inetNtop addr) = some addr ∧ inetPton (inetNtop addr) = some addr) := by
  have heq : ∀ t, inetPton t ≠ none → parseIpv4 t = inetPton t := fun t =>
    parseIpv4_eq_inetPton ⟨by decide,by decide,by decide,Or.inl ⟨rfl,rfl⟩⟩ (by decide)
  refine ⟨?_,fun haddr => ?_⟩
  · have hpton : (inetPton s).isSome ↔ _ := inetPtonFrom_isSome 0 0 [] s (Nat.zero_le _)
    have hparse : (parseIpv4 s).isSome ↔ _ := parseIpv4From_isSome 0 0 0 0 [] s (fun _ => rfl)
      (fun _ => rfl) fun _ => rfl
    have hzero : (tooLarge 0 || tooLarge 0 || tooLarge 0) = false := by decide
    have := heq s
    unfold Dotted
    cases hs : inetPton s <;> cases hp : parseIpv4 s <;> grind
  have hback := inetPton_inetNtop haddr
  exact ⟨(heq _ fun hno => by cases hno.symm.trans hback).trans hback,hback⟩

theorem ipv4_parsers_agree_text : parseIpv4 [49,46,50,46,51,46,52] = inetPton [49,46,50,46,51,46,52] :=
  (ipv4_parsers_agree _ 0).1.mpr fun h => by
    obtain ⟨-,-,f,hf,hbad⟩ := h
    revert f
    decide

/-- Four empty fields. -/
theorem ipv4_empty_fields : parseIpv4 [46,46,46] = some 0 ∧ inetPton [46,46,46] = none := by decide

def dnsEncodeLabels (maxLen : Nat) : Nat → List UInt8 → List UInt8 → Option (List UInt8)
  | _, [], out => some out
  | 0, _, _ => none
  | fuel+1, p, out =>
    let label := p.takeWhile (· != 46)
    if maxLen ≤ out.length + 1 + label.length then none
    else dnsEncodeLabels maxLen fuel (p.drop (label.length + 1)) (out ++ UInt8.ofNat label.length :: label)

def dnsEncodeName (name : List UInt8) (maxLen : Nat) : Option (List UInt8) := do
  let out ← dnsEncodeLabels maxLen name.length name []
  if maxLen ≤ out.length then none else some (out ++ [0])

/-- Labels as RFC 1035 has them, and where they end. -/
def readLabels : Nat → List UInt8 → Option (List (List UInt8) × Nat)
  | fuel+1, n :: rest =>
    if n = 0 then some ([],1)
    else if 64 ≤ n ∨ rest.length < n.toNat then none
    else (readLabels fuel (rest.drop n.toNat)).map fun r => (rest.take n.toNat :: r.1,r.2 + n.toNat + 1)
  | _, _ => none

def hostname (dot : Bool) : List (List UInt8) → List UInt8
  | [] => []
  | [l] => l ++ if dot then [46] else []
  | l :: ls => l ++ 46 :: hostname dot ls

def wire (ls : List (List UInt8)) : List UInt8 := ls.flatMap fun l => UInt8.ofNat l.length :: l

def Label (l : List UInt8) : Prop := l ≠ [] ∧ l.length ≤ 63 ∧ 46 ∉ l

theorem hostname_cons (dot : Bool) {l : List UInt8} (ls : List (List UInt8)) (hl : Label l) :
    hostname dot (l :: ls) ≠ [] ∧ (hostname dot (l :: ls)).takeWhile (· != 46) = l ∧
      (hostname dot (l :: ls)).drop (l.length + 1) = hostname dot ls := by
  have hall : ∀ c ∈ l, (c != 46) = true := fun c hc => bne_iff_ne.mpr fun h => hl.2.2 (h ▸ hc)
  have hself : (l ++ []).takeWhile (· != 46) = l ++ [] := takeWhile_append_of_pos hall
  rw [append_nil] at hself
  cases ls with
  | nil => cases dot <;> simp [hostname,hl.1,hself,takeWhile_append_of_pos hall]
  | cons m ms => simp [hostname,takeWhile_append_of_pos hall]

section
variable {ls : List (List UInt8)}

theorem dnsEncodeLabels_hostname (maxLen : Nat) (dot : Bool) (hls : ∀ l ∈ ls, Label l) {fuel : Nat}
    (hf : ls.length ≤ fuel) (out : List UInt8) (hout : out.length < maxLen) :
    dnsEncodeLabels maxLen fuel (hostname dot ls) out =
      if out.length + (wire ls).length < maxLen then some (out ++ wire ls) else none := by
  induction ls generalizing fuel out with
  | nil => simp [hostname,dnsEncodeLabels,wire,hout]
  | cons l ls ih =>
    obtain ⟨hne,htake,hdrop⟩ := hostname_cons dot ls (hls l mem_cons_self)
    cases fuel with
    | zero => cases hf
    | succ fuel =>
      rw [dnsEncodeLabels.eq_3 _ _ _ _ hne,htake]
      have hwire : wire (l :: ls) = UInt8.ofNat l.length :: l ++ wire ls := rfl
      have hlen := congrArg length hwire
      simp only [cons_append,length_cons,length_append] at hlen
      split
      · rw [if_neg (by omega)]
      rw [hdrop,ih (fun m hm => hls m (mem_cons_of_mem l hm)) (Nat.le_of_succ_le_succ hf) _ (by simp; omega)]
      simp only [hwire,append_assoc,cons_append,length_append,length_cons]
      congr 2
      omega

theorem readLabels_wire (hls : ∀ l ∈ ls, Label l) {fuel : Nat} (hf : ls.length < fuel) :
    readLabels fuel (wire ls ++ [0]) = some (ls,(wire ls).length + 1) := by
  induction ls generalizing fuel with
  | nil =>
    cases fuel with
    | zero => cases hf
    | succ fuel => rfl
  | cons l ls ih =>
    cases fuel with
    | zero => cases hf
    | succ fuel =>
      obtain ⟨hne,hle,-⟩ := hls l mem_cons_self
      have hpos := length_pos_iff.mpr hne
      have hn : (UInt8.ofNat l.length).toNat = l.length := by
        rw [UInt8.toNat_ofNat']
        omega
      have h0 : UInt8.ofNat l.length ≠ 0 := fun h => by
        have := congrArg UInt8.toNat h
        rw [hn] at this
        exact Nat.ne_of_gt hpos this
      have h64 : ¬64 ≤ UInt8.ofNat l.length := by
        rw [UInt8.le_iff_toNat_le,hn]
        exact Nat.not_le.mpr (Nat.lt_succ_of_le hle)
      have hwire : wire (l :: ls) ++ [0] = UInt8.ofNat l.length :: (l ++ (wire ls ++ [0])) := by simp [wire]
      rw [hwire,readLabels,if_neg h0,hn,if_neg (by simp [h64]),drop_left,take_left,
        ih (fun m hm => hls m (mem_cons_of_mem l hm)) (Nat.lt_of_succ_lt_succ hf)]
      simp only [Option.map_some,wire,flatMap_cons,cons_append,length_cons,length_append]
      congr 2
      omega

theorem length_hostname (dot : Bool) (hls : ∀ l ∈ ls, Label l) :
    ls.length ≤ (hostname dot ls).length := by
  induction ls with
  | nil => exact Nat.zero_le _
  | cons l ls ih =>
    have hdrop := congrArg length (hostname_cons dot ls (hls l mem_cons_self)).2.2
    have hpos := length_pos_iff.mpr (hls l mem_cons_self).1
    have := ih fun m hm => hls m (mem_cons_of_mem l hm)
    have := length_pos_iff.mpr (hostname_cons dot ls (hls l mem_cons_self)).1
    rw [length_drop] at hdrop
    rw [length_cons]
    omega

end

theorem length_wire (ls : List (List UInt8)) : ls.length ≤ (wire ls).length := by
  induction ls with
  | nil => exact Nat.zero_le _
  | cons l ls ih =>
    simp only [wire,flatMap_cons,length_append,length_cons] at ih ⊢
    omega

/-- A name of labels as they should be. -/
def Hostname (name : List UInt8) (ls : List (List UInt8)) : Prop :=
  ls ≠ [] ∧ (∀ l ∈ ls, Label l) ∧ ∃ dot, name = hostname dot ls

theorem Hostname.encode {name : List UInt8} {ls : List (List UInt8)} (h : Hostname name ls)
    (maxLen : Nat) : dnsEncodeName name maxLen =
      if (wire ls).length + 1 ≤ maxLen then some (wire ls ++ [0]) else none := by
  obtain ⟨hne,hls,dot,rfl⟩ := h
  have hfuel := length_hostname dot hls
  rw [dnsEncodeName]
  cases maxLen with
  | zero =>
    cases ls with
    | nil => exact absurd rfl hne
    | cons l ls =>
      obtain ⟨k,hk⟩ := Nat.exists_eq_add_of_lt (Nat.lt_of_lt_of_le (Nat.succ_pos _) hfuel)
      rw [hk,dnsEncodeLabels.eq_3 _ _ _ _ (hostname_cons dot ls (hls l mem_cons_self)).1]
      simp
  | succ n =>
    rw [dnsEncodeLabels_hostname _ dot hls hfuel [] (Nat.succ_pos n),length_nil,Nat.zero_add,nil_append]
    by_cases hroom : (wire ls).length < n + 1
    · rw [if_pos hroom,if_pos (Nat.succ_le_of_lt hroom)]
      exact if_neg (Nat.not_le.mpr hroom)
    · rw [if_neg hroom,if_neg (show ¬(wire ls).length + 1 ≤ n + 1 from hroom)]
      rfl

/-- What the labels take, the byte that ends them apart. -/
def encodedSize (name : List UInt8) : Nat :=
  name.length + if name = [] ∨ name.getLast? = some 46 then 0 else 1

theorem encodedSize_cons (c : UInt8) {p : List UInt8} (hp : p ≠ []) :
    encodedSize (c :: p) = encodedSize p + 1 := by
  simp [encodedSize,hp,getLast?_cons_of_ne_nil,Nat.add_right_comm]

theorem encodedSize_label {p : List UInt8} (hp : p ≠ []) :
    encodedSize p =
      (p.takeWhile (· != 46)).length + 1 + encodedSize (p.drop ((p.takeWhile (· != 46)).length + 1)) := by
  induction p with
  | nil => exact absurd rfl hp
  | cons c p ih =>
    by_cases hc : c = 46
    · subst hc
      by_cases hnil : p = []
      · subst hnil
        rfl
      · simp [encodedSize_cons 46 hnil,Nat.add_comm]
    · by_cases hnil : p = []
      · subst hnil
        simp [encodedSize,hc]
      · rw [encodedSize_cons c hnil,ih hnil]
        simp [hc]
        omega

theorem dnsEncodeLabels_size (maxLen : Nat) {fuel : Nat} {p : List UInt8} (hfuel : p.length ≤ fuel)
    (out : List UInt8) : match dnsEncodeLabels maxLen fuel p out with
    | none => p ≠ [] ∧ maxLen ≤ out.length + encodedSize p
    | some r => r.length = out.length + encodedSize p ∧ (p = [] ∨ r.length < maxLen) := by
  induction fuel generalizing p out with
  | zero =>
    have hp := length_eq_zero_iff.mp (Nat.le_zero.mp hfuel)
    subst hp
    simp [dnsEncodeLabels,encodedSize]
  | succ fuel ih =>
    by_cases hp : p = []
    · subst hp
      simp [dnsEncodeLabels,encodedSize]
    have hsize := encodedSize_label hp
    have hrest : (p.drop ((p.takeWhile (· != 46)).length + 1)).length ≤ fuel := by
      rw [length_drop]
      omega
    have hstep := ih hrest (out ++ UInt8.ofNat (p.takeWhile (· != 46)).length :: p.takeWhile (· != 46))
    rw [length_append,length_cons] at hstep
    rw [dnsEncodeLabels.eq_3 _ _ _ _ hp]
    by_cases hfull : maxLen ≤ out.length + 1 + (p.takeWhile (· != 46)).length
    · simp only [hfull,if_true]
      exact ⟨hp,by omega⟩
    simp only [hfull,if_false]
    split at hstep
    · exact ⟨hp,by omega⟩
    · refine ⟨by omega,.inr ?_⟩
      obtain hnil | hlt := hstep.2
      · rw [hnil,show encodedSize [] = 0 from rfl] at hstep
        omega
      · exact hlt

theorem dnsEncodeName_isSome (name : List UInt8) (maxLen : Nat) :
    (dnsEncodeName name maxLen).isSome ↔ encodedSize name < maxLen := by
  have h := dnsEncodeLabels_size maxLen (Nat.le_refl name.length) []
  rw [dnsEncodeName]
  cases hc : dnsEncodeLabels maxLen name.length name [] with
  | none =>
    simp only [hc,length_nil,Nat.zero_add] at h
    simp [Nat.not_lt.mpr h.2]
  | some r =>
    simp only [hc,length_nil,Nat.zero_add] at h
    simp [← h.1]

/-- It succeeds exactly for names of labels that fit, and what it writes reads back as they were. -/
def Encodes (name : List UInt8) (maxLen : Nat) : Prop :=
  ((dnsEncodeName name maxLen).isSome ↔ ∃ ls, Hostname name ls ∧ (wire ls).length + 1 ≤ maxLen) ∧
  ∀ out ls, dnsEncodeName name maxLen = some out → Hostname name ls →
    readLabels out.length out = some (ls,out.length)

theorem dns_names_encoded (name : List UInt8) (maxLen : Nat) :
    Encodes name maxLen ↔ (∃ ls, Hostname name ls) ∨ maxLen ≤ encodedSize name := by
  have hsize := dnsEncodeName_isSome name maxLen
  constructor
  · intro h
    by_contra hno
    obtain ⟨hname,hroom⟩ := not_or.mp hno
    obtain ⟨ls,hls,-⟩ := h.1.mp (hsize.mpr (Nat.lt_of_not_le hroom))
    exact hname ⟨ls,hls⟩
  intro h
  refine ⟨⟨fun hsome => ?_,fun ⟨ls,hls,hroom⟩ => by simp [hls.encode,hroom]⟩,fun out ls hout hls => ?_⟩
  · obtain ⟨ls,hls⟩ := h.resolve_right (Nat.not_le.mpr (hsize.mp hsome))
    rw [hls.encode] at hsome
    exact ⟨ls,hls,by_contra fun hno => by simp [hno] at hsome⟩
  rw [hls.encode] at hout
  split at hout
  · cases hout
    rw [length_append,length_singleton]
    exact readLabels_wire hls.2.1 (Nat.lt_succ_of_le (length_wire ls))
  · cases hout

theorem dns_names_encoded_two : Encodes (hostname true [[97],[98]]) 256 :=
  (dns_names_encoded _ _).mpr (.inl ⟨[[97],[98]],by decide,by simp [Label],true,rfl⟩)

/-- An empty label ends the name for whoever reads it. -/
theorem dns_empty_label :
    dnsEncodeName [97,46,46,98] 256 = some [1,97,0,1,98,0] ∧ readLabels 6 [1,97,0,1,98,0] = some ([[97]],3) := by
  decide

end Rucux.Libc
