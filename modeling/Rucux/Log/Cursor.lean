import Mathlib.Algebra.Order.Ring.Nat
import Mathlib.Data.List.Range
import Rucux.Lib.Machine

/-!
The kernel log: a ring of records, their text, and reading by a cursor that the reader keeps.
-/

namespace Rucux.Log
open List

def ringCapacity : Nat := 128

def identMax : Nat := 32

def textMax : Nat := 224

def lineCapacity : Nat := 384

/-- A `log_record`. The texts end before the last byte of their arrays, which is for a terminator. -/
structure Record where
  sequence : UInt64
  timestamp : UInt64
  cpuId : UInt32
  threadId : UInt32
  source : UInt32
  priority : UInt32
  ident : List UInt8
  message : List UInt8
  ident_lt : ident.length < identMax
  message_lt : message.length < textMax

/-- What is submitted, with what the clock, the CPU and the thread are then. -/
structure Submission where
  timestamp : UInt64
  cpuId : UInt32
  threadId : UInt32
  source : UInt32
  priority : UInt32
  ident : List UInt8
  message : List UInt8

def copyBounded (dstSize : Nat) (src : List UInt8) : List UInt8 := src.take (dstSize - 1)

theorem copyBounded_lt {dstSize : Nat} (h : 0 < dstSize) (src : List UInt8) :
    (copyBounded dstSize src).length < dstSize := by
  rw [copyBounded,length_take]
  omega

def Submission.record (x : Submission) (sequence : Nat) : Record where
  sequence := UInt64.ofNat sequence
  timestamp := x.timestamp
  cpuId := x.cpuId
  threadId := x.threadId
  source := x.source
  priority := x.priority
  ident := copyBounded identMax x.ident
  message := copyBounded textMax x.message
  ident_lt := copyBounded_lt (by decide) _
  message_lt := copyBounded_lt (by decide) _

def appendChar (capacity : Nat) (buffer : List UInt8) (ch : UInt8) : List UInt8 :=
  if buffer.length + 1 ≥ capacity then buffer else buffer ++ [ch]

def cString (text : List UInt8) : List UInt8 := text.takeWhile (· ≠ 0)

def appendString (capacity : Nat) (buffer text : List UInt8) : List UInt8 :=
  (cString text).foldl (appendChar capacity) buffer

def digits : Nat → Nat → List UInt8
  | 0, _ => []
  | count+1, value => if value = 0 then [] else digits count (value / 10) ++ [UInt8.ofNat (48 + value % 10)]

def decimal (value : Nat) : List UInt8 := if value = 0 then [48] else digits 32 value

def appendU64 (capacity : Nat) (buffer : List UInt8) (value : Nat) : List UInt8 :=
  (decimal value).foldl (appendChar capacity) buffer

def formatRecord (r : Record) (capacity : Nat) : List UInt8 :=
  let b := appendU64 capacity [] r.priority.toNat
  let b := appendChar capacity b 44
  let b := appendU64 capacity b r.sequence.toNat
  let b := appendChar capacity b 44
  let b := appendU64 capacity b r.timestamp.toNat
  let b := appendChar capacity b 44
  let b := appendU64 capacity b r.source.toNat
  let b := appendChar capacity b 44
  let b := appendU64 capacity b r.cpuId.toNat
  let b := appendChar capacity b 44
  let b := appendU64 capacity b r.threadId.toNat
  let b := appendChar capacity b 59
  let b := if r.ident.length ≠ 0 then appendString capacity (appendString capacity b r.ident) [58,32] else b
  let b := appendString capacity b r.message
  appendChar capacity b 10

/-- The line of a record, in a buffer that is large enough. -/
def render (r : Record) : List UInt8 :=
  decimal r.priority.toNat ++ [44] ++ decimal r.sequence.toNat ++ [44] ++ decimal r.timestamp.toNat ++ [44] ++
    decimal r.source.toNat ++ [44] ++ decimal r.cpuId.toNat ++ [44] ++ decimal r.threadId.toNat ++ [59] ++
    (if r.ident.length ≠ 0 then cString r.ident ++ [58,32] else []) ++ cString r.message ++ [10]

theorem foldl_appendChar {capacity : Nat} {buffer text : List UInt8} (h : buffer.length + text.length < capacity) :
    text.foldl (appendChar capacity) buffer = buffer ++ text := by
  induction text generalizing buffer with
  | nil => simp
  | cons ch text ih =>
    rw [length_cons] at h
    rw [foldl_cons,appendChar,if_neg (by omega),ih (by simp; omega)]
    simp

theorem formatRecord_eq_foldl (r : Record) (capacity : Nat) :
    formatRecord r capacity = (render r).foldl (appendChar capacity) [] := by
  simp only [formatRecord,render,appendU64,appendString,foldl_append,foldl_cons,foldl_nil]
  split <;> simp [foldl_append,cString]

theorem length_digits {count value k : Nat} (h : value < 10^k) : (digits count value).length ≤ k := by
  induction count generalizing value k with
  | zero => simp [digits]
  | succ count ih =>
    rw [digits]
    split
    · simp
    cases k with
    | zero => simp at h; omega
    | succ k =>
      have := @ih (value / 10) k (by omega)
      simp
      omega

theorem length_decimal {value k : Nat} (hk : 0 < k) (h : value < 10^k) : (decimal value).length ≤ k := by
  rw [decimal]
  split
  · exact hk
  · exact length_digits h

theorem length_render (r : Record) : 0 < (render r).length ∧ (render r).length ≤ 343 := by
  have h32 : ∀ x : UInt32, (decimal x.toNat).length ≤ 10 := fun x =>
    length_decimal (by decide) (Nat.lt_of_lt_of_le x.toNat_lt (by decide))
  have h64 : ∀ x : UInt64, (decimal x.toNat).length ≤ 20 := fun x =>
    length_decimal (by decide) (Nat.lt_of_lt_of_le x.toNat_lt (by decide))
  have hstr : ∀ xs : List UInt8, (cString xs).length ≤ xs.length := fun xs => (takeWhile_sublist _).length_le
  have := r.ident_lt
  have := r.message_lt
  simp only [identMax,textMax] at *
  simp only [render,length_append,length_cons,length_nil]
  have := h32 r.priority
  have := h64 r.sequence
  have := h64 r.timestamp
  have := h32 r.source
  have := h32 r.cpuId
  have := h32 r.threadId
  have := hstr r.ident
  have := hstr r.message
  split <;> simp only [length_append,length_cons,length_nil] <;> omega

theorem formatRecord_eq_render (r : Record) : formatRecord r lineCapacity = render r := by
  have := (length_render r).2
  rw [formatRecord_eq_foldl,foldl_appendChar (by simp [lineCapacity]; omega),nil_append]

/-!
Reading the log by a cursor, and what the reader has then seen of the records appended meanwhile.
-/

open Lib Function

structure LogRing where
  written : Nat
  records : Nat → Record

def blank : Record := ⟨0,0,0,0,0,0,[],[],by decide,by decide⟩

namespace LogRing
variable {l : LogRing} {history : Nat → Record}

def clear : LogRing := ⟨0,fun _ => blank⟩

def append (l : LogRing) (x : Submission) : LogRing :=
  ⟨l.written + 1,update l.records (l.written % ringCapacity) (x.record l.written)⟩

def oldestVisible (l : LogRing) : Nat := if l.written > ringCapacity then l.written - ringCapacity else 0

def copyFrom (l : LogRing) (size : Nat) : Nat → Nat → List UInt8 → List UInt8 × Nat
  | 0, sequence, copied => (copied,sequence)
  | fuel+1, sequence, copied =>
    let line := formatRecord (l.records (sequence % ringCapacity)) lineCapacity
    if line.length = 0 then l.copyFrom size fuel (sequence + 1) copied
    else if line.length > size - copied.length then (copied,sequence)
    else l.copyFrom size fuel (sequence + 1) (copied ++ line)

/-- What is copied, the next sequence, and how many records were dropped. -/
def copyRecords (l : LogRing) (start size : Nat) : List UInt8 × Nat × Nat :=
  if size = 0 then ([],start,0)
  else
    let dropped := if start < l.oldestVisible then l.oldestVisible - start else 0
    let sequence := if start < l.oldestVisible then l.oldestVisible else start
    let sequence := if sequence > l.written then l.written else sequence
    let (copied,next) := l.copyFrom size (l.written - sequence) sequence []
    (copied,next,dropped)

def visible (l : LogRing) (n : Nat) : Bool := l.oldestVisible ≤ n && n < l.written

theorem oldestVisible_eq (l : LogRing) : l.oldestVisible = l.written - 128 := by
  rw [oldestVisible,ringCapacity]
  split <;> omega

theorem visible_iff {n : Nat} : l.visible n = true ↔ l.oldestVisible ≤ n ∧ n < l.written := by
  simp [visible]

/-- The ring holds the latest of the records appended. -/
def Holds (l : LogRing) (history : Nat → Record) : Prop :=
  ∀ n, l.visible n = true → l.records (n % ringCapacity) = history n

theorem Holds.append (h : l.Holds history) (x : Submission) :
    (l.append x).Holds (update history l.written (x.record l.written)) := by
  intro n hn
  rw [visible_iff,oldestVisible_eq] at hn
  simp only [LogRing.append] at hn ⊢
  by_cases he : n = l.written
  · rw [he,update_self,update_self]
  have hslot : n % ringCapacity ≠ l.written % ringCapacity := by
    simp only [ringCapacity]
    omega
  rw [update_of_ne hslot,update_of_ne he]
  exact h n (by rw [visible_iff,oldestVisible_eq]; omega)

def text (history : Nat → Record) (ns : List Nat) : List UInt8 := (ns.map fun n => render (history n)).flatten

theorem Holds.copyFrom (h : l.Holds history) (size : Nat) {fuel sequence : Nat} {copied : List UInt8}
    (hold : l.oldestVisible ≤ sequence) (hfuel : sequence + fuel = l.written) :
    ∃ k, k ≤ fuel ∧ l.copyFrom size fuel sequence copied =
      (copied ++ text history (range' sequence k),sequence + k) ∧
      (0 < fuel → copied.length + 343 ≤ size → 0 < k) := by
  induction fuel generalizing sequence copied with
  | zero => exact ⟨0,Nat.le_refl 0,by simp [LogRing.copyFrom,text],fun h => absurd h (Nat.lt_irrefl 0)⟩
  | succ fuel ih =>
    have hvis : l.visible sequence = true := visible_iff.mpr ⟨hold,by omega⟩
    obtain ⟨hpos,hmax⟩ := length_render (history sequence)
    rw [LogRing.copyFrom]
    simp only [h sequence hvis,formatRecord_eq_render]
    rw [if_neg (by omega)]
    split
    · exact ⟨0,Nat.zero_le _,by simp [text],fun _ hroom => by omega⟩
    obtain ⟨k,hk,he,_⟩ := @ih (sequence + 1) (copied ++ render (history sequence)) (by omega) (by omega)
    refine ⟨k + 1,by omega,?_,fun _ _ => Nat.succ_pos k⟩
    rw [he,range'_succ]
    simp [text]
    omega

theorem Holds.copyRecords (h : l.Holds history) {start : Nat} (hstart : start ≤ l.written) (size : Nat) :
    ∃ next, start ≤ next ∧ next ≤ l.written ∧
      let passed := range' start (next - start)
      l.copyRecords start size =
        (text history (passed.filter l.visible),next,(passed.filter fun n => !l.visible n).length) ∧
      (343 ≤ size → start < l.written → passed.filter l.visible ≠ []) := by
  rw [LogRing.copyRecords]
  by_cases hsize : size = 0
  · exact ⟨start,le_rfl,hstart,by simp [hsize,text],fun h => by omega⟩
  have hle : l.oldestVisible ≤ l.written := by
    rw [oldestVisible_eq]
    omega
  generalize hf : (if start < l.oldestVisible then l.oldestVisible else start) = first
  have hfirst : start ≤ first ∧ l.oldestVisible ≤ first ∧ first ≤ l.written ∧
    (first = start ∨ first = l.oldestVisible) := by
    split at hf <;> omega
  obtain ⟨k,hk,he,hsome⟩ := @Holds.copyFrom _ _ h size _ _ [] hfirst.2.1 (Nat.add_sub_cancel' hfirst.2.2.1)
  have hpassed : range' start (first + k - start) = range' start (first - start) ++ range' first k := by
    rw [show first + k - start = (first - start) + k by omega,← range'_append_1,Nat.add_sub_cancel' hfirst.1]
  have hgone : ∀ n ∈ range' start (first - start), l.visible n = false := by
    intro n hn
    have := mem_range'_1.mp hn
    exact Bool.not_eq_true _ |>.mp fun hv => by have := visible_iff.mp hv; omega
  have hhere : ∀ n ∈ range' first k, l.visible n = true := by
    intro n hn
    have := mem_range'_1.mp hn
    exact visible_iff.mpr (by omega)
  have hin : (range' start (first + k - start)).filter l.visible = range' first k := by
    rw [hpassed,filter_append,filter_eq_nil_iff.mpr (by simpa using hgone),nil_append,
      filter_eq_self.mpr hhere]
  have hout : ((range' start (first + k - start)).filter fun n => !l.visible n).length = first - start := by
    rw [hpassed,filter_append,filter_eq_self.mpr (by simpa using hgone),
      filter_eq_nil_iff.mpr (by simpa using hhere)]
    simp
  refine ⟨first + k,by omega,by omega,?_,fun hroom hunread => ?_⟩
  · simp only [if_neg hsize,if_neg (show ¬first > l.written by omega),he,hin,hout,nil_append]
    refine congrArg (fun d => (text history (range' first k),first + k,d)) ?_
    split <;> omega
  rw [hin]
  intro hnil
  have hk0 : k = 0 := by simpa using congrArg length hnil
  rw [oldestVisible_eq] at hfirst
  simp only [length_nil] at hsome
  omega

end LogRing

/-- The log with a reader: where it began and is, what it got and how many records it was told it lost;
and, of the records its cursor passed, those that were in the ring then and those that were not. -/
structure Reader where
  log : LogRing
  history : Nat → Record
  base : Nat
  cursor : Nat
  output : List UInt8
  dropped : Nat
  delivered : List Nat
  skipped : List Nat

namespace Reader
variable {s : Reader}

def append (s : Reader) (x : Submission) : Reader :=
  { s with log := s.log.append x, history := update s.history s.log.written (x.record s.log.written) }

def read (s : Reader) (size : Nat) : Reader :=
  let (copied,next,dropped) := s.log.copyRecords s.cursor size
  let passed := range' s.cursor (next - s.cursor)
  { s with
    cursor := next
    output := s.output ++ copied
    dropped := s.dropped + dropped
    delivered := s.delivered ++ passed.filter s.log.visible
    skipped := s.skipped ++ passed.filter fun n => !s.log.visible n }

inductive Event where
  | append (x : Submission)
  | read (size : Nat) (allocated : Bool)

/-- Without memory for the copy a read fails, unless it is one of nothing. -/
def step (s : Reader) : Event → Reader
  | .append x => s.append x
  | .read size allocated => if size ≠ 0 ∧ allocated = false then s else s.read size

def machine : Machine Reader Event := ⟨⟨.clear,fun _ => blank,0,0,[],0,[],[]⟩,step⟩

structure Sound (s : Reader) : Prop where
  holds : s.log.Holds s.history
  cursor : s.base ≤ s.cursor ∧ s.cursor ≤ s.log.written
  output : s.output = LogRing.text s.history s.delivered
  dropped : s.dropped = s.skipped.length
  passed : ∀ n, n ∈ s.delivered ∨ n ∈ s.skipped ↔ s.base ≤ n ∧ n < s.cursor
  apart : ∀ n ∈ s.delivered, n ∉ s.skipped
  ordered : s.delivered.Pairwise (· < ·)
  orderedSkipped : s.skipped.Pairwise (· < ·)

theorem Sound.append (h : s.Sound) (x : Submission) : (s.append x).Sound := by
  refine ⟨h.holds.append x,⟨h.cursor.1,Nat.le_succ_of_le h.cursor.2⟩,?_,h.dropped,h.passed,h.apart,h.ordered,
    h.orderedSkipped⟩
  refine h.output.trans (congrArg flatten ?_)
  refine map_congr_left fun n hn => ?_
  have hlt := ((h.passed n).mp (Or.inl hn)).2
  have := h.cursor.2
  exact congrArg render (update_of_ne (by omega) _ _).symm

theorem pairwise_passed {ns : List Nat} {k m : Nat} (h : ns.Pairwise (· < ·)) (hlt : ∀ n ∈ ns, n < k) (p : Nat → Bool) :
    (ns ++ (range' k m).filter p).Pairwise (· < ·) := by
  refine pairwise_append.mpr ⟨h,(pairwise_lt_range' (s := k) (n := m)).filter p,fun a ha b hb => ?_⟩
  have := mem_range'_1.mp (mem_filter.mp hb).1
  have := hlt a ha
  omega

theorem Sound.read (h : s.Sound) (size : Nat) : (s.read size).Sound ∧ s.cursor ≤ (s.read size).cursor ∧
    (343 ≤ size → s.cursor < s.log.written →
      s.delivered.length < (s.read size).delivered.length ∧ s.cursor < (s.read size).cursor) := by
  obtain ⟨next,hle,hmax,he,hsome⟩ := h.holds.copyRecords h.cursor.2 size
  have hold : ∀ n, n ∈ s.delivered ∨ n ∈ s.skipped → n < s.cursor := fun n hn => ((h.passed n).mp hn).2
  have hnew : ∀ n, n ∈ range' s.cursor (next - s.cursor) ↔ s.cursor ≤ n ∧ n < next := fun n => by
    rw [mem_range'_1]
    omega
  have hbase := Nat.le_trans h.cursor.1 hle
  simp only [Reader.read,he]
  refine ⟨⟨h.holds,⟨hbase,hmax⟩,?_,?_,fun n => ?_,fun n => ?_,?_,?_⟩,hle,fun hroom hunread => ?_⟩
  · simp only [LogRing.text,map_append,flatten_append]
    rw [h.output,LogRing.text]
  · rw [length_append,h.dropped]
  · have := h.passed n
    have := h.cursor.1
    simp only [mem_append,mem_filter,hnew]
    grind
  · have hn := h.apart n
    have hlt := hold n
    simp only [mem_append,mem_filter,hnew]
    grind
  · exact pairwise_passed h.ordered (fun n hn => hold n (Or.inl hn)) _
  · exact pairwise_passed h.orderedSkipped (fun n hn => hold n (Or.inr hn)) _
  obtain ⟨n,hn⟩ := exists_mem_of_ne_nil _ (hsome hroom hunread)
  have := (hnew n).mp (mem_filter.mp hn).1
  rw [length_append]
  exact ⟨Nat.lt_add_of_pos_right (length_pos_of_mem hn),by omega⟩

theorem Sound.step (h : s.Sound) (e : Event) : (s.step e).Sound := by
  cases e with
  | append x => exact h.append x
  | read size allocated =>
    rw [Reader.step]
    split
    · exact h
    · exact (h.read size).1

theorem sound_run (es : List Event) : (machine.run es).Sound := by
  refine machine.run_invariant (I := Sound) ⟨?_,⟨Nat.le_refl 0,Nat.le_refl 0⟩,rfl,rfl,?_,?_,.nil,.nil⟩
    (fun _ e h => h.step e) es
  · intro n hn
    rw [LogRing.visible_iff] at hn
    exact absurd hn.2 (Nat.not_lt_zero n)
  · simp [machine]
  · simp [machine]

/-- A reader that goes on from where it was gets the lines of exactly the records that were in the ring when its
cursor passed them, each once and in order, and is told how many were not. -/
theorem cursor_reads (es : List Event) :
    let s := machine.run es
    s.output = (s.delivered.map fun n => render (s.history n)).flatten ∧
    (∀ r : Record, formatRecord r lineCapacity = render r ∧ (render r).getLast? = some 10) ∧
    s.delivered.Pairwise (· < ·) ∧ s.skipped.Pairwise (· < ·) ∧
    (∀ n, n ∈ s.delivered ∨ n ∈ s.skipped ↔ n < s.cursor) ∧ (∀ n ∈ s.delivered, n ∉ s.skipped) ∧
    s.dropped = s.skipped.length ∧ s.cursor ≤ s.log.written ∧
    (∀ n, s.log.visible n = true → s.log.records (n % ringCapacity) = s.history n) ∧
    (∀ e, s.cursor ≤ (s.step e).cursor) ∧
    ∀ size, 343 ≤ size → s.cursor < s.log.written →
      s.delivered.length < (s.step (.read size true)).delivered.length := by
  intro s
  have h : s.Sound := sound_run es
  have hbase : ∀ es, (machine.run es).base = 0 := fun es =>
    machine.run_invariant (I := fun s => s.base = 0) rfl (fun s e hs => by
      cases e with
      | append x => exact hs
      | read size allocated =>
        simp only [machine,Reader.step]
        split <;> exact hs) es
  refine ⟨h.output,fun r => ⟨formatRecord_eq_render r,by rw [render,getLast?_concat]⟩,
    h.ordered,h.orderedSkipped,fun n => ?_,h.apart,
    h.dropped,h.cursor.2,h.holds,fun e => ?_,fun size hroom hunread => ?_⟩
  · have := h.passed n
    rw [this,hbase es]
    simp
  · cases e with
    | append x => exact le_rfl
    | read size allocated =>
      rw [Reader.step]
      split
      · exact le_rfl
      · exact (h.read size).2.1
  · rw [Reader.step,if_neg (by simp)]
    exact ((h.read size).2.2 hroom hunread).1

end Reader
end Rucux.Log
