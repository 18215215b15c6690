import Rucux.Log.Cursor

/-!
Reading the log through `/dev/kmsg`, where the offset of the descriptor counts from the oldest record that is
still in the ring.
-/

namespace Rucux.Log
open Lib Function List LogRing

namespace LogRing
variable {l : LogRing} {history : Nat → Record}

def kmsgFrom (l : LogRing) (offset size : Nat) : Nat → Nat → Nat → List UInt8 → List UInt8
  | 0, _, _, copied => copied
  | fuel+1, sequence, streamOffset, copied =>
    if copied.length ≥ size then copied
    else
      let line := formatRecord (l.records (sequence % ringCapacity)) lineCapacity
      if line.length = 0 then l.kmsgFrom offset size fuel (sequence + 1) streamOffset copied
      else if offset ≥ streamOffset + line.length then
        l.kmsgFrom offset size fuel (sequence + 1) (streamOffset + line.length) copied
      else
        let lineOffset := if offset > streamOffset then offset - streamOffset else 0
        let chunk := min (line.length - lineOffset) (size - copied.length)
        l.kmsgFrom offset size fuel (sequence + 1) (streamOffset + line.length)
          (copied ++ (line.drop lineOffset).take chunk)

def kmsgRead (l : LogRing) (offset size : Nat) : List UInt8 :=
  if size = 0 then []
  else l.kmsgFrom offset size (l.written - l.oldestVisible) l.oldestVisible 0 []

theorem text_cons (n : Nat) (ns : List Nat) : text history (n :: ns) = render (history n) ++ text history ns := rfl

theorem text_concat (ns : List Nat) (n : Nat) : text history (ns ++ [n]) = text history ns ++ render (history n) := by
  simp [text]

theorem Holds.kmsgFrom (h : l.Holds history) (offset size : Nat)
    {fuel sequence streamOffset : Nat} {copied : List UInt8}
    (hold : l.oldestVisible ≤ sequence) (hfuel : sequence + fuel = l.written) :
    l.kmsgFrom offset size fuel sequence streamOffset copied = copied ++
      ((text history (range' sequence fuel)).drop (offset - streamOffset)).take (size - copied.length) := by
  induction fuel generalizing sequence streamOffset copied with
  | zero => simp [LogRing.kmsgFrom,text]
  | succ fuel ih =>
    have hvis : l.visible sequence = true := visible_iff.mpr ⟨hold,by omega⟩
    have hpos := (length_render (history sequence)).1
    rw [LogRing.kmsgFrom,range'_succ,text_cons]
    split
    · rw [Nat.sub_eq_zero_of_le (by assumption),take_zero,append_nil]
    simp only [h sequence hvis,formatRecord_eq_render]
    rw [if_neg (by omega)]
    generalize render (history sequence) = line at hpos
    split
    · have hskip : line.drop (offset - streamOffset) = [] := drop_of_length_le (by omega)
      rw [ih (by omega) (by omega),drop_append,hskip,nil_append,Nat.sub_sub]
    have hoff : (if offset > streamOffset then offset - streamOffset else 0) = offset - streamOffset := by
      split <;> omega
    rw [ih (by omega) (by omega),hoff,Nat.sub_eq_zero_of_le (show offset ≤ streamOffset + line.length by omega),
      drop_zero,drop_append_of_le_length (by omega),take_append,append_assoc]
    congr 1
    simp only [length_append,length_take,length_drop]
    congr 1
    · rcases Nat.le_total (line.length - (offset - streamOffset)) (size - copied.length) with hle | hle
      · rw [Nat.min_eq_left hle,take_of_length_le (by simp),take_of_length_le (by simpa using hle)]
      · rw [Nat.min_eq_right hle]
    · congr 1
      omega

theorem Holds.kmsgRead (h : l.Holds history) (offset size : Nat) : l.kmsgRead offset size =
    ((text history (range' l.oldestVisible (l.written - l.oldestVisible))).drop offset).take size := by
  rw [LogRing.kmsgRead]
  split
  · rename_i hs
    rw [hs,take_zero]
  have := l.oldestVisible_eq
  rw [h.kmsgFrom offset size (le_rfl) (by omega)]
  simp

/-- Where a part of the text ends: after a record, or inside one. -/
theorem ends_in_record {out : List UInt8} {a w : Nat} (h : out <+: text history (range' a w)) :
    ∃ k rest, k ≤ w ∧ out ++ rest = text history (range' a k) ∧
      (rest = [] ∨ ∃ n, (range' a k).getLast? = some n ∧ rest.length < (render (history n)).length) := by
  induction w with
  | zero => exact ⟨0,[],Nat.le_refl 0,by simpa [text] using h,Or.inl rfl⟩
  | succ w ih =>
    rw [range'_1_concat,text_concat] at h
    by_cases hle : out.length ≤ (text history (range' a w)).length
    · obtain ⟨k,rest,hk,hrest⟩ := ih (prefix_of_prefix_length_le h (prefix_append _ _) hle)
      exact ⟨k,rest,Nat.le_succ_of_le hk,hrest⟩
    obtain ⟨rest,hrest⟩ := h
    refine ⟨w + 1,rest,le_rfl,by rw [range'_1_concat,text_concat,hrest],Or.inr ⟨a + w,by simp [range'_1_concat],?_⟩⟩
    have := congrArg length hrest
    simp only [length_append] at this
    omega

end LogRing

/-- The log, and one descriptor of `/dev/kmsg` with what was read from it. -/
structure Kmsg where
  log : LogRing
  history : Nat → Record
  offset : Nat
  output : List UInt8

namespace Kmsg
variable {s : Kmsg}

def append (s : Kmsg) (x : Submission) : Kmsg :=
  { s with log := s.log.append x, history := update s.history s.log.written (x.record s.log.written) }

/-- `sys_read`, which gives an error for what is longer than `LONG_MAX` or takes the offset past `SIZE_MAX`. -/
def sysRead (s : Kmsg) (size : Nat) : Kmsg :=
  if size = 0 ∨ size > 9223372036854775807 then s
  else
    let bytes := s.log.kmsgRead s.offset size
    if bytes.length > size ∨ bytes.length > 18446744073709551615 - s.offset then s
    else { s with offset := s.offset + bytes.length, output := s.output ++ bytes }

inductive Event where
  | append (x : Submission)
  | read (size : Nat)

def step (s : Kmsg) : Event → Kmsg
  | .append x => s.append x
  | .read size => s.sysRead size

def machine : Machine Kmsg Event := ⟨⟨.clear,fun _ => blank,0,[]⟩,step⟩

/-- What was read are lines of records in their order, the last of which need not be complete, without those
that are lost. -/
def Streamed (s : Kmsg) : Prop :=
  ∃ ns rest, ns.Pairwise (· < ·) ∧ (∀ n ∈ ns, n < s.log.written) ∧ s.output ++ rest = text s.history ns ∧
    (rest = [] ∨ ∃ n, ns.getLast? = some n ∧ rest.length < (render (s.history n)).length) ∧
    ∀ n k, k ∈ ns → n < k → n ∉ ns → s.log.visible n = false

/-- An append overwrites a record only while nothing has been read. -/
def OverwritesUnread (s : Kmsg) : Event → Prop
  | .append _ => 128 ≤ s.log.written → s.offset = 0
  | .read _ => True

instance : (s : Kmsg) → (e : Event) → Decidable (OverwritesUnread s e)
  | s, .append _ => inferInstanceAs (Decidable (128 ≤ s.log.written → s.offset = 0))
  | _, .read _ => .isTrue trivial

/-- The offset is a place in the text of the records that are in the ring. -/
structure Sound (s : Kmsg) : Prop where
  holds : s.log.Holds s.history
  output : s.output <+: text s.history (range' s.log.oldestVisible (s.log.written - s.log.oldestVisible))
  offset : s.offset = s.output.length

theorem Sound.append (h : s.Sound) {x : Submission} (hok : OverwritesUnread s (.append x)) : (s.append x).Sound := by
  refine ⟨h.holds.append x,?_,h.offset⟩
  by_cases hfull : 128 ≤ s.log.written
  · rw [show (s.append x).output = [] from length_eq_zero_iff.mp (h.offset.symm.trans (hok hfull))]
    exact nil_prefix
  -- no record is lost, and the text goes on with that of the new one
  have hsame : text (s.append x).history (range' 0 s.log.written) = text s.history (range' 0 s.log.written) := by
    refine congrArg flatten (map_congr_left fun n hn => congrArg render ?_)
    exact update_of_ne (by have := mem_range'_1.mp hn; omega) _ _
  have hnew : (s.append x).log.written = s.log.written + 1 := rfl
  have hpre := h.output
  rw [oldestVisible_eq,Nat.sub_eq_zero_of_le (by omega),Nat.sub_zero] at hpre ⊢
  rw [hnew,range'_1_concat,text_concat,hsame]
  exact hpre.trans (prefix_append _ _)

theorem Sound.read (h : s.Sound) (size : Nat) : (s.sysRead size).Sound := by
  unfold sysRead
  split
  · exact h
  dsimp only
  split
  · exact h
  obtain ⟨rest,hrest⟩ := h.output
  refine ⟨h.holds,?_,by rw [length_append,h.offset]⟩
  simp only
  rw [h.holds.kmsgRead,← hrest,h.offset,drop_left]
  exact (prefix_append_right_inj _).mpr ( take_prefix _ _)

theorem sound_run (es : List Event) (hok : machine.Along OverwritesUnread machine.initial es) :
    (machine.run es).Sound := by
  refine machine.runFrom_invariant OverwritesUnread (I := Sound) (fun s e h ho => ?_) ⟨?_, nil_prefix,rfl⟩ es hok
  · cases e with
    | append x => exact h.append ho
    | read size => exact h.read size
  · intro n hn
    rw [visible_iff] at hn
    exact absurd hn.2 (Nat.not_lt_zero n)

/-- A descriptor is a stream if no record is overwritten after the first read. -/
theorem kmsg_streams (es : List Event) (hok : machine.Along OverwritesUnread machine.initial es) :
    (machine.run es).Streamed := by
  obtain ⟨k,rest,hk,hrest,hlast⟩ := ends_in_record (sound_run es hok).output
  refine ⟨_,rest,pairwise_lt_range',fun n hn => ?_,hrest,hlast,fun n m hm hnm hn => ?_⟩
  · have := mem_range'_1.mp hn
    omega
  · rw [mem_range'_1] at hm hn
    rw [← Bool.not_eq_true,visible_iff]
    omega

def said (byte : UInt8) : Submission := ⟨0,0,0,2,6,[],[byte,byte]⟩

theorem kmsg_streams_two :
    (machine.run [.append (said 97),.read 20,.append (said 98),.read 20]).Streamed ∧
    (machine.run (replicate 129 (.append (said 97)) ++ [.read 20,.read 20])).Streamed :=
  ⟨kmsg_streams _ (by decide +kernel),kmsg_streams _ (by decide +kernel)⟩

/-- The first record is read up to the middle of its text and then overwritten. -/
def overrun : List Event :=
  [.append (said 97),.read 13] ++ replicate 128 (.append (said 98)) ++ [.read 2]

/-- The next read goes on in the middle of another record. -/
theorem kmsg_torn : ¬(machine.run overrun).Streamed := by
  rintro ⟨ns,rest,-,hlt,htext,-⟩
  have hwritten : (machine.run overrun).log.written = 129 := by decide +kernel
  have hfirst : ∀ n < 129, (machine.run overrun).output.isPrefixOf (render ((machine.run overrun).history n)) = false ∧
      (render ((machine.run overrun).history n)).isPrefixOf (machine.run overrun).output = false := by
    decide +kernel
  cases ns with
  | nil =>
    have hout : (machine.run overrun).output ≠ [] := by decide +kernel
    exact hout (append_eq_nil_iff.mp htext).1
  | cons n ns =>
    obtain ⟨h1,h2⟩ := hfirst n (hwritten ▸ hlt n mem_cons_self)
    rw [text_cons] at htext
    have hpre := prefix_append (machine.run overrun).output rest
    rw [htext] at hpre
    cases prefix_or_prefix_of_prefix hpre (prefix_append _ _) with
    | inl h => exact Bool.false_ne_true (h1.symm.trans ( isPrefixOf_iff_prefix.mpr h))
    | inr h => exact Bool.false_ne_true (h2.symm.trans ( isPrefixOf_iff_prefix.mpr h))

end Kmsg

/-!
The text of the log as a reader sees it that splits it at newlines.
-/

/-- The complete lines of a text, after what was begun of the first. -/
def lines : List UInt8 → List UInt8 → List (List UInt8)
  | _, [] => []
  | line, b :: bs => if b = 10 then (line ++ [b]) :: lines [] bs else lines (line ++ [b]) bs

def number (ds : List UInt8) : Nat := ds.foldl (fun v d => v * 10 + (d.toNat - 48)) 0

def header : List UInt8 → List UInt8 → List Nat
  | field, [] => [number field]
  | field, b :: bs =>
    if b = 44 then number field :: header [] bs else if b = 59 then [number field] else header (field ++ [b]) bs

/-- `RUCUX_JOURNAL_MARKER_PREFIX`: `@rucux-journal boot=` -/
def journalMarker : List UInt8 := [64,114,117,99,117,120,45,106,111,117,114,110,97,108,32,98,111,111,116,61]

def parseBootMarker (line : List UInt8) : Nat :=
  if line.length = 0 then 0
  else if line.length < journalMarker.length ∨ line.take journalMarker.length ≠ journalMarker then 0
  else ((line.drop journalMarker.length).takeWhile fun ch => 48 ≤ ch && ch ≤ 57).foldl
    (fun bootId ch => (bootId * 10 + (ch.toNat - 48)) % 18446744073709551616) 0

theorem mem_digits {count value : Nat} {b : UInt8} (h : b ∈ digits count value) : 48 ≤ b.toNat ∧ b.toNat ≤ 57 := by
  induction count generalizing value with
  | zero => cases h
  | succ count ih =>
    rw [digits] at h
    split at h
    · cases h
    cases mem_append.mp h with
    | inl h => exact ih h
    | inr h =>
      rw [mem_singleton.mp h,UInt8.toNat_ofNat']
      omega

theorem mem_decimal {value : Nat} {b : UInt8} (h : b ∈ decimal value) : 48 ≤ b.toNat ∧ b.toNat ≤ 57 := by
  rw [decimal] at h
  split at h
  · rw [mem_singleton.mp h]
    decide
  · exact mem_digits h

theorem number_digits {count value : Nat} (h : value < 10^count) : number (digits count value) = value := by
  induction count generalizing value with
  | zero => exact (Nat.lt_one_iff.mp h).symm
  | succ count ih =>
    rw [digits]
    split
    · rename_i hv
      rw [hv]
      rfl
    have := @ih (value / 10) (by omega)
    rw [number,foldl_append,← number,this]
    simp only [foldl_cons,foldl_nil,UInt8.toNat_ofNat']
    omega

theorem number_decimal {value : Nat} (h : value < 18446744073709551616) : number (decimal value) = value := by
  rw [decimal]
  split
  · rename_i hv
    rw [hv]
    rfl
  · exact number_digits (Nat.lt_trans h (by decide))

theorem header_field {ds : List UInt8} (h : ∀ b ∈ ds, b ≠ 44 ∧ b ≠ 59) (field rest : List UInt8) :
    header field (ds ++ rest) = header (field ++ ds) rest := by
  induction ds generalizing field with
  | nil => simp
  | cons b ds ih =>
    obtain ⟨h44,h59⟩ := h b mem_cons_self
    rw [cons_append,header,if_neg h44,if_neg h59,ih fun x hx => h x (mem_cons_of_mem b hx)]
    simp

section
variable {value : Nat} (h : value < 18446744073709551616) (rest : List UInt8)
include h

theorem header_comma : header [] (decimal value ++ 44 :: rest) = value :: header [] rest := by
  rw [header_field fun b hb => ?_,header,if_pos rfl,nil_append,number_decimal h]
  have := mem_decimal hb
  exact ⟨by rintro rfl; simp at this,by rintro rfl; simp at this⟩

theorem header_semicolon : header [] (decimal value ++ 59 :: rest) = [value] := by
  rw [header_field fun b hb => ?_,header,if_neg (by decide),if_pos rfl,nil_append,number_decimal h]
  have := mem_decimal hb
  exact ⟨by rintro rfl; simp at this,by rintro rfl; simp at this⟩

end

theorem header_render (r : Record) : header [] (render r) =
    [r.priority.toNat,r.sequence.toNat,r.timestamp.toNat,r.source.toNat,r.cpuId.toNat,r.threadId.toNat] := by
  have h32 : ∀ x : UInt32, x.toNat < 18446744073709551616 := fun x => Nat.lt_trans x.toNat_lt (by decide)
  have h64 : ∀ x : UInt64, x.toNat < 18446744073709551616 := fun x => x.toNat_lt
  simp only [render,append_assoc,cons_append,nil_append]
  rw [header_comma (h32 _),header_comma (h64 _),header_comma (h64 _),header_comma (h32 _),header_comma (h32 _),
    header_semicolon (h32 _)]

theorem parseBootMarker_render (r : Record) : parseBootMarker (render r).dropLast = 0 := by
  obtain ⟨d,ds,hd⟩ : ∃ d ds, decimal r.priority.toNat = d :: ds := by
    refine exists_cons_of_ne_nil fun hnil => ?_
    have := number_decimal (Nat.lt_trans r.priority.toNat_lt (by decide) : r.priority.toNat < 18446744073709551616)
    rw [hnil] at this
    rw [← this] at hnil
    exact absurd hnil (by decide)
  have hd48 := mem_decimal (hd ▸ mem_cons_self : d ∈ decimal r.priority.toNat)
  have hline : ∃ rest, (render r).dropLast = d :: rest := by
    rw [render,dropLast_concat,hd]
    simp only [cons_append]
    exact ⟨_,rfl⟩
  obtain ⟨rest,hrest⟩ := hline
  rw [parseBootMarker,hrest]
  split
  · rfl
  rw [if_pos]
  refine Or.inr fun htake => ?_
  have : d = 64 := by simpa [journalMarker] using congrArg head? htake
  rw [this] at hd48
  simp at hd48

theorem lines_line {body : List UInt8} (h : 10 ∉ body) (line rest : List UInt8) :
    lines line (body ++ 10 :: rest) = (line ++ body ++ [10]) :: lines [] rest := by
  induction body generalizing line with
  | nil => simp [lines]
  | cons b body ih =>
    rw [mem_cons,not_or] at h
    rw [cons_append,lines,if_neg (Ne.symm h.1),ih h.2]
    simp

theorem lines_take (line bs : List UInt8) (k : Nat) : lines line (bs.take k) <+: lines line bs := by
  induction bs generalizing line k with
  | nil => simp
  | cons b bs ih =>
    cases k with
    | zero => simp [lines]
    | succ k =>
      rw [take_succ_cons,lines,lines]
      split
      · exact (prefix_cons_inj _).mpr (ih [] k)
      · exact ih _ k

def Plain (r : Record) : Prop := (10 : UInt8) ∉ r.ident ∧ (10 : UInt8) ∉ r.message

theorem newline_notMem {r : Record} (h : Plain r) : (10 : UInt8) ∉ (render r).dropLast := by
  have hdec : ∀ v, (10 : UInt8) ∉ decimal v := fun v hv => by
    have := mem_decimal hv
    simp at this
  have hstr : ∀ {xs : List UInt8}, 10 ∉ xs → 10 ∉ cString xs := fun hx hm => hx ((takeWhile_sublist _).subset hm)
  rw [render,dropLast_concat]
  have hident := hstr h.1
  have hmessage := hstr h.2
  split <;> simp [hdec,hident,hmessage]

theorem lines_text {history : Nat → Record} {ns : List Nat} (h : ∀ n ∈ ns, Plain (history n)) :
    lines [] (text history ns) = ns.map fun n => render (history n) := by
  induction ns with
  | nil => rfl
  | cons n ns ih =>
    have hend : (render (history n)).dropLast ++ [10] = render (history n) := by
      rw [render,dropLast_concat]
    rw [text_cons,← hend,append_assoc,singleton_append,lines_line (newline_notMem (h n mem_cons_self)),
      ih fun m hm => h m (mem_cons_of_mem n hm),nil_append,hend,map_cons]

namespace LogRing
variable {l : LogRing}

def Shown (l : LogRing) (bytes : List UInt8) : Prop :=
  ∃ ns : List Nat, ns.Pairwise (· < ·) ∧ (∀ n ∈ ns, l.visible n = true) ∧
    lines [] bytes = ns.map fun n => render (l.records (n % ringCapacity))

theorem shown_take (h : ∀ i, Plain (l.records i)) {ns : List Nat} (hlt : ns.Pairwise (· < ·))
    (hvis : ∀ n ∈ ns, l.visible n = true) (k : Nat) :
    l.Shown ((text (fun n => l.records (n % ringCapacity)) ns).take k) := by
  have hpre := lines_take [] (text (fun n => l.records (n % ringCapacity)) ns) k
  rw [lines_text fun n _ => h _,prefix_iff_eq_take,← map_take] at hpre
  exact ⟨_,hlt.sublist (take_sublist _ _),fun n hn => hvis n (mem_of_mem_take hn),hpre⟩

theorem plain_run (xs : List Submission) (h : ∀ x ∈ xs, (10 : UInt8) ∉ x.ident ∧ (10 : UInt8) ∉ x.message)
    (hl : ∀ i, Plain (l.records i)) (i : Nat) : Plain ((xs.foldl append l).records i) := by
  induction xs generalizing l with
  | nil => exact hl i
  | cons x xs ih =>
    refine ih (fun y hy => h y (mem_cons_of_mem x hy)) fun j => ?_
    by_cases hj : j = l.written % ringCapacity
    · obtain ⟨hi,hm⟩ := h x mem_cons_self
      simp only [append,hj,update_self]
      exact ⟨fun hx => hi (mem_of_mem_take hx),fun hx => hm (mem_of_mem_take hx)⟩
    · simp only [append,update_of_ne hj]
      exact hl j

end LogRing

/-- Where no text has a newline in it, every line that is read is that of one record in the ring, in their order,
with the numbers that the kernel recorded, and none is a marker of the journal. -/
theorem lines_genuine (xs : List Submission) (h : ∀ x ∈ xs, (10 : UInt8) ∉ x.ident ∧ (10 : UInt8) ∉ x.message)
    (start size : Nat) :
    let l := xs.foldl append .clear
    l.Shown (l.copyRecords start size).1 ∧ (∀ offset, l.Shown (l.kmsgRead 0 offset ++ l.kmsgRead offset size)) ∧
    ∀ r : Record, header [] (render r) =
        [r.priority.toNat,r.sequence.toNat,r.timestamp.toNat,r.source.toNat,r.cpuId.toNat,r.threadId.toNat] ∧
      parseBootMarker (render r).dropLast = 0 := by
  intro l
  have hplain := plain_run (l := .clear) xs h fun _ => by simp [clear,blank,Plain]
  have hholds : l.Holds fun n => l.records (n % ringCapacity) := fun _ _ => rfl
  have hrange : ∀ n ∈ range' l.oldestVisible (l.written - l.oldestVisible), l.visible n = true := fun n hn => by
    have := mem_range'_1.mp hn
    exact visible_iff.mpr (by omega)
  refine ⟨?_,fun offset => ?_,fun r => ⟨header_render r,parseBootMarker_render r⟩⟩
  · by_cases hstart : start ≤ l.written
    · obtain ⟨next,-,-,he,-⟩ := hholds.copyRecords hstart size
      rw [he]
      rw [← take_of_length_le (Nat.le_refl (text _ _).length)]
      exact shown_take hplain ((pairwise_lt_range').sublist filter_sublist) (fun n hn => (mem_filter.mp hn).2) _
    have hnil : (l.copyRecords start size).1 = [] := by
      rw [copyRecords]
      have hold := l.oldestVisible_eq
      split
      · rfl
      simp only [if_neg (show ¬start < l.oldestVisible by omega),if_pos (show start > l.written by omega),
        Nat.sub_self,copyFrom]
    rw [hnil]
    exact ⟨[],.nil,by simp,rfl⟩
  · rw [hholds.kmsgRead,hholds.kmsgRead,drop_zero,← take_add]
    exact shown_take hplain pairwise_lt_range' hrange (offset + size)

theorem lines_genuine_two :
    let l := [Kmsg.said 97,Kmsg.said 98].foldl append .clear
    l.Shown (l.copyRecords 0 100).1 ∧ (∀ offset, l.Shown (l.kmsgRead 0 offset ++ l.kmsgRead offset 100)) ∧
    ∀ r : Record, header [] (render r) =
        [r.priority.toNat,r.sequence.toNat,r.timestamp.toNat,r.source.toNat,r.cpuId.toNat,r.threadId.toNat] ∧
      parseBootMarker (render r).dropLast = 0 :=
  lines_genuine [Kmsg.said 97,Kmsg.said 98] (by decide) 0 100

/-- A newline in a message begins a line of the sender's own: here `0,9,0,0,0,1;!`, which has another priority,
sequence and thread than the record, and a marker of boot 7. -/
theorem lines_forged :
    let x : Submission := ⟨5,0,3,2,6,[],[10,48,44,57,44,48,44,48,44,48,44,49,59,33,10] ++ journalMarker ++ [55]⟩
    let read := ((clear.append x).copyRecords 0 384).1
    ¬(clear.append x).Shown read ∧
    (lines [] read).map (fun line => (header [] line,parseBootMarker line.dropLast)) =
      [([6,0,5,2,0,3],0),([0,9,0,0,0,1],0),([number (journalMarker ++ [55,10])],7)] ∧
    (clear.append x).kmsgRead 0 384 = read := by
  refine ⟨?_,by decide +kernel,by decide +kernel⟩
  rintro ⟨ns,hlt,hvis,hlines⟩
  have hlen := congrArg length hlines
  rw [length_map] at hlen
  have hone : ∀ n ∈ ns, n < 1 := fun n hn => (visible_iff.mp (hvis n hn)).2
  cases ns with
  | nil => exact absurd hlen (by decide +kernel)
  | cons n ns =>
    cases ns with
    | nil =>
      rw [length_singleton] at hlen
      exact absurd hlen (by decide +kernel)
    | cons m ns =>
      have := (pairwise_cons.mp hlt).1 m mem_cons_self
      have := hone m (mem_cons_of_mem n mem_cons_self)
      omega

end Rucux.Log
