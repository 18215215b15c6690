import Rucux.Log.Cursor

/-! `logd`, which mirrors the kernel log into a journal. -/

namespace Rucux.Log
open Lib

inductive Entry where
  | marker (bootId firstSequence : Nat)
  | notice (droppedRecords : Nat)
  | lines (bytes : List UInt8)

def readBufferSize : Nat := 8192

/-- The log and what the main loop keeps: `limit` is the `records_written` of the statistics, and
`looping` says that the inner loop has not been left. -/
structure Logd where
  reader : Reader
  initialized : Bool
  limit : Nat
  looping : Bool
  journal : List Entry

namespace Logd
variable {s : Logd}

/-- The statistics are fetched; the first time the journal is begun and the cursor set. -/
def fetch (s : Logd) (bootId : Nat) : Logd :=
  let written := s.reader.log.written
  let visible := if written < ringCapacity then written else ringCapacity
  let oldest := if written > visible then written - visible else 0
  let s := if s.initialized then s else
    { s with
      reader := ⟨s.reader.log,s.reader.history,oldest,oldest,[],0,[],[]⟩
      initialized := true
      journal := [.marker bootId oldest] }
  { s with limit := written, looping := true }

/-- One turn of the inner loop; `allocated` says whether the kernel gets the memory for the read. -/
def turn (s : Logd) (allocated : Bool) : Logd :=
  if s.looping = false ∨ ¬s.reader.cursor < s.limit then s
  else if allocated = false then { s with looping := false }
  else
    let (copied,next,dropped) := s.reader.log.copyRecords s.reader.cursor readBufferSize
    let journal := if dropped ≠ 0 then s.journal ++ [.notice dropped] else s.journal
    let journal := if copied.length ≠ 0 then journal ++ [.lines copied] else journal
    if next = s.reader.cursor ∧ copied.length = 0 ∧ dropped = 0 then { s with journal, looping := false }
    else { s with reader := s.reader.read readBufferSize, journal }

inductive Event where
  | append (x : Submission)
  | clear
  | fetch (bootId : Nat)
  | turn (allocated : Bool)

def step (s : Logd) : Event → Logd
  | .append x => { s with reader := s.reader.append x }
  | .clear => { s with reader := { s.reader with log := .clear } }
  | .fetch bootId => s.fetch bootId
  | .turn allocated => s.turn allocated

def machine : Machine Logd Event := ⟨⟨Reader.machine.initial,false,0,false,[]⟩,step⟩

/-- An iteration of the main loop that nothing interrupts and in which the reads get their memory. There
are at most as many turns as records. -/
def iteration (s : Logd) (bootId : Nat) : Logd :=
  machine.runFrom s (.fetch bootId :: List.replicate s.reader.log.written (.turn true))

def mirrored : List Entry → List UInt8
  | [] => []
  | .lines bytes :: es => bytes ++ mirrored es
  | _ :: es => mirrored es

def reported : List Entry → Nat
  | [] => 0
  | .notice n :: es => n + reported es
  | _ :: es => reported es

theorem mirrored_append (xs ys : List Entry) : mirrored (xs ++ ys) = mirrored xs ++ mirrored ys := by
  induction xs with
  | nil => rfl
  | cons e xs ih => cases e <;> simp [mirrored,ih]

theorem reported_append (xs ys : List Entry) : reported (xs ++ ys) = reported xs + reported ys := by
  induction xs with
  | nil => simp [reported]
  | cons e xs ih => cases e <;> simp [reported,ih,Nat.add_assoc]

structure Sound (s : Logd) : Prop where
  reader : s.reader.Sound
  mirrored : mirrored s.journal = s.reader.output
  reported : reported s.journal = s.reader.dropped

theorem Sound.fetch (h : s.Sound) (bootId : Nat) : (s.fetch bootId).Sound ∧
    (s.fetch bootId).reader.log = s.reader.log ∧ (s.fetch bootId).limit = s.reader.log.written ∧
    (s.fetch bootId).looping = true := by
  cases hi : s.initialized with
  | true =>
    rw [Logd.fetch,hi]
    exact ⟨⟨h.reader,h.mirrored,h.reported⟩,rfl,rfl,rfl⟩
  | false =>
    rw [Logd.fetch,hi]
    refine ⟨⟨⟨h.reader.holds,⟨le_rfl,?_⟩,rfl,rfl,fun n => ?_,?_,.nil,.nil⟩,rfl,rfl⟩,rfl,rfl,rfl⟩
    · have hle : ∀ w v : Nat, (if w > v then w - v else 0) ≤ w := fun w v => by split <;> omega
      exact hle _ _
    · simp
    · simp

theorem Sound.turn (h : s.Sound) (allocated : Bool) : (s.turn allocated).Sound ∧
    (s.turn allocated).reader.log = s.reader.log ∧ (s.turn allocated).limit = s.limit ∧
    s.reader.cursor ≤ (s.turn allocated).reader.cursor ∧
    (allocated = true → s.looping = true → s.limit = s.reader.log.written → s.reader.cursor < s.limit →
      (s.turn allocated).looping = true ∧ s.reader.cursor < (s.turn allocated).reader.cursor) := by
  obtain ⟨hread,hmono,hmore⟩ := h.reader.read readBufferSize
  rw [Logd.turn]
  by_cases hout : s.looping = false ∨ ¬s.reader.cursor < s.limit
  · rw [if_pos hout]
    exact ⟨h,rfl,rfl,le_rfl,fun _ hl _ hlt => by simp [hl,hlt] at hout⟩
  rw [if_neg hout]
  by_cases ha : allocated = false
  · rw [if_pos ha]
    exact ⟨⟨h.reader,h.mirrored,h.reported⟩,rfl,rfl,le_rfl,fun ha' => by simp [ha] at ha'⟩
  rw [if_neg ha]
  have houtput : (s.reader.read readBufferSize).output =
    s.reader.output ++ (s.reader.log.copyRecords s.reader.cursor readBufferSize).1 := rfl
  have hdropped : (s.reader.read readBufferSize).dropped =
    s.reader.dropped + (s.reader.log.copyRecords s.reader.cursor readBufferSize).2.2 := rfl
  have hcursor : (s.reader.read readBufferSize).cursor =
    (s.reader.log.copyRecords s.reader.cursor readBufferSize).2.1 := rfl
  generalize s.reader.log.copyRecords s.reader.cursor readBufferSize = r at houtput hdropped hcursor
  obtain ⟨copied,next,dropped⟩ := r
  dsimp only at houtput hdropped hcursor ⊢
  generalize hj : (if copied.length ≠ 0 then (if dropped ≠ 0 then s.journal ++ [Entry.notice dropped] else s.journal) ++
    [Entry.lines copied] else if dropped ≠ 0 then s.journal ++ [Entry.notice dropped] else s.journal) = journal
  have hm : Logd.mirrored journal = s.reader.output ++ copied := by
    subst hj
    rw [← h.mirrored]
    split <;> split <;> simp_all [mirrored_append,Logd.mirrored]
  have hr : Logd.reported journal = s.reader.dropped + dropped := by
    subst hj
    rw [← h.reported]
    split <;> split <;> simp_all [reported_append,Logd.reported]
  by_cases hnone : next = s.reader.cursor ∧ copied.length = 0 ∧ dropped = 0
  · rw [if_pos hnone]
    refine ⟨⟨h.reader,?_,?_⟩,rfl,rfl,le_rfl,fun _ _ hl hlt => ?_⟩
    · rw [hm,List.length_eq_zero_iff.mp hnone.2.1,List.append_nil]
    · rw [hr,hnone.2.2,Nat.add_zero]
    have := (hmore (by decide) (by omega)).2
    omega
  rw [if_neg hnone]
  refine ⟨⟨hread,hm.trans houtput.symm,hr.trans hdropped.symm⟩,rfl,rfl,hmono,fun _ hloop hl hlt => ⟨hloop,?_⟩⟩
  exact (hmore (by decide) (by omega)).2

def ClearsUnread (s : Logd) : Event → Prop
  | .clear => s.reader.cursor = 0
  | _ => True

instance (s : Logd) : (e : Event) → Decidable (ClearsUnread s e)
  | .clear => inferInstanceAs (Decidable (s.reader.cursor = 0))
  | .append _ => .isTrue trivial
  | .fetch _ => .isTrue trivial
  | .turn _ => .isTrue trivial

theorem Sound.step (h : s.Sound) {e : Event} (hok : ClearsUnread s e) : (s.step e).Sound := by
  cases e with
  | append x => exact ⟨h.reader.append x,h.mirrored,h.reported⟩
  | clear =>
    have hc : s.reader.cursor = 0 := hok
    refine ⟨⟨fun n hn => ?_,⟨h.reader.cursor.1,by simp [Logd.step,hc]⟩,h.reader.output,h.reader.dropped,h.reader.passed,
      h.reader.apart,h.reader.ordered,h.reader.orderedSkipped⟩,h.mirrored,h.reported⟩
    exact absurd (LogRing.visible_iff.mp hn).2 (Nat.not_lt_zero n)
  | fetch bootId => exact (h.fetch bootId).1
  | turn allocated => exact (h.turn allocated).1

theorem logd_sound_run (es : List Event) (hok : machine.Along ClearsUnread machine.initial es) :
    (machine.run es).Sound :=
  machine.runFrom_invariant ClearsUnread (fun _ _ h ho => h.step ho) ⟨Reader.sound_run [],rfl,rfl⟩ es hok

theorem Sound.turns (h : s.Sound) (hloop : s.looping = true) (hlimit : s.limit = s.reader.log.written) {n : Nat}
    (hn : s.limit ≤ s.reader.cursor + n) :
    let s' := machine.runFrom s (List.replicate n (.turn true))
    s'.Sound ∧ s'.reader.log = s.reader.log ∧ s'.limit = s.limit ∧ s'.limit ≤ s'.reader.cursor := by
  induction n generalizing s with
  | zero => exact ⟨h,rfl,rfl,hn⟩
  | succ n ih =>
    rw [List.replicate_succ,Machine.runFrom_cons]
    by_cases hlt : s.reader.cursor < s.limit
    · obtain ⟨hs,hlog,hl,_,hmore⟩ := h.turn true
      obtain ⟨hloop',hcur⟩ := hmore rfl hloop hlimit hlt
      obtain ⟨hs',hlog',hl',hend⟩ := ih hs hloop' (by rw [hl,hlog,hlimit]) (by omega)
      exact ⟨hs',hlog'.trans hlog,hl'.trans hl,hend⟩
    have he : machine.step s (.turn true) = s := if_pos (Or.inr hlt)
    rw [he]
    exact ih h hloop hlimit (by omega)

/-- If the log is cleared only while nothing has been read, then after an iteration that nothing interrupts the
journal has the line of each record in the log from where it was begun on, or counts it as dropped. -/
theorem journal_complete (es : List Event) (hok : machine.Along ClearsUnread machine.initial es) (bootId : Nat) :
    let s := (machine.run es).iteration bootId
    s.reader.log = (machine.run es).reader.log ∧ s.limit = s.reader.log.written ∧ s.limit ≤ s.reader.cursor ∧
    (∀ n, s.reader.base ≤ n → n < s.reader.log.written → n ∈ s.reader.delivered ∨ n ∈ s.reader.skipped) ∧
    mirrored s.journal = (s.reader.delivered.map fun n => render (s.reader.history n)).flatten ∧
    reported s.journal = s.reader.skipped.length := by
  intro s
  obtain ⟨hf,hlogf,hlf,hloop⟩ := (logd_sound_run es hok).fetch bootId
  obtain ⟨h,hlog,hl,hend⟩ := hf.turns hloop (by rw [hlf,hlogf]) (Nat.le_add_left_of_le hlf.le)
  change s.Sound at h
  change s.reader.log = _ at hlog
  change s.limit = _ at hl
  change s.limit ≤ s.reader.cursor at hend
  have hwritten : s.limit = s.reader.log.written := by rw [hl,hlf,hlog,hlogf]
  refine ⟨hlog.trans hlogf,hwritten,hend,fun n hbase hn => ?_,h.mirrored.trans h.reader.output,
    h.reported.trans h.reader.dropped⟩
  exact (h.reader.passed n).mpr ⟨hbase,by omega⟩

private def note (text : List UInt8) : Submission := ⟨0,0,0,2,0,[],text⟩

/-- A record is read and the log cleared: the next record has the number of the first, and is neither mirrored nor
reported. -/
theorem journal_silent :
    let s := machine.run [.fetch 1,.append (note [97]),.fetch 1,.turn true,.clear,.append (note [98])]
    (s.iteration 1).reader.log.written = 1 ∧ (s.iteration 1).limit ≤ (s.iteration 1).reader.cursor ∧
    formatRecord ((s.iteration 1).reader.log.records 0) lineCapacity = render ((note [98]).record 0) ∧
    mirrored (s.iteration 1).journal = render ((note [97]).record 0) ∧
    reported (s.iteration 1).journal = 0 ∧
    render ((note [97]).record 0) ≠ render ((note [98]).record 0) := by
  decide +kernel

theorem journal_complete_one :
    let s := (machine.run [.append (note [97]),.clear,.fetch 1,.append (note [98])]).iteration 1
    mirrored s.journal = render ((note [98]).record 0) ∧ ∀ n, s.reader.base ≤ n → n < s.reader.log.written →
      n ∈ s.reader.delivered ∨ n ∈ s.reader.skipped :=
  ⟨by decide +kernel,(journal_complete [.append (note [97]),.clear,.fetch 1,.append (note [98])]
    (by decide +kernel) 1).2.2.2.1⟩

end Logd
end Rucux.Log
