import Rucux.Lib.Machine
import Rucux.Lib.RingBuffer

/-!
The terminal: a ring of input, the count of complete lines in it, and reads of a line or of bytes.
-/

namespace Rucux.Vfs
open Lib List RingBuffer

/-- Of `termios`: `ICANON`, `ICRNL` and `VMIN`. -/
structure Termios where
  canonical : Bool
  icrnl : Bool
  vmin : UInt8

structure Tty where
  term : Termios
  rx : RingBuffer UInt8
  linesAvailable : Nat
  waiting : Option Nat

def delimiter (c : UInt8) : Bool := c = 10 || c = 4

namespace Tty
variable {s : Tty} {r : RingBuffer UInt8} {line rest : List UInt8} {d : UInt8}

def create : Tty := ⟨⟨true,true,1⟩,⟨fun _ => 0,1024,0,0⟩,0,none⟩

/-- The erasing loop, which goes on for a kill. -/
def erase (kill : Bool) : Nat → RingBuffer UInt8 → RingBuffer UInt8
  | 0, r => r
  | fuel+1, r =>
    if r.head = r.tail then r
    else
      let previous := (r.head + r.size - 1) % r.size
      if delimiter (r.buf previous) then r
      else if kill then erase kill fuel { r with head := previous } else { r with head := previous }

/-- The thread is the one that is woken. -/
def feedInput (s : Tty) (c : UInt8) : Tty × Option Nat :=
  let canonical := s.term.canonical
  let c := if c = 13 ∧ s.term.icrnl then 10 else c
  if canonical ∧ (c = 127 ∨ c = 8 ∨ c = 21) then ({ s with rx := erase (c = 21) s.rx.used s.rx },none)
  else
    let nextHead := (s.rx.head + 1) % s.rx.size
    let afterNext := (nextHead + 1) % s.rx.size
    if nextHead = s.rx.tail ∨ canonical ∧ !delimiter c ∧ afterNext = s.rx.tail then (s,none)
    else
      let lines := if canonical ∧ delimiter c then s.linesAvailable + 1 else s.linesAvailable
      let s := { s with rx := s.rx.put c, linesAvailable := lines }
      if s.waiting.isSome ∧ (canonical = false ∨ lines ≠ 0) then ({ s with waiting := none },s.waiting) else (s,none)

def ready (s : Tty) (size : Nat) : Bool :=
  if s.term.canonical then s.linesAvailable ≠ 0 else s.rx.used ≥ min s.term.vmin.toNat size

/-- The reading loop, with room for so many bytes. -/
def drain (canonical : Bool) : Nat → RingBuffer UInt8 → Nat → List UInt8 × RingBuffer UInt8 × Nat
  | 0, r, lines => ([],r,lines)
  | room+1, r, lines =>
    if r.tail = r.head then ([],r,lines)
    else
      let c := r.buf r.tail
      let r := { r with tail := (r.tail + 1) % r.size }
      if canonical ∧ c = 4 then ([],r,lines - 1)
      else if canonical ∧ c = 10 then ([c],r,lines - 1)
      else
        let more := drain canonical room r lines
        (c :: more.1,more.2)

def read (s : Tty) (size : Nat) : List UInt8 × Tty :=
  let d := drain s.term.canonical size s.rx s.linesAvailable
  (d.1,{ s with rx := d.2.1, linesAvailable := d.2.2 })

theorem contents_retract (h : r.InRange) (hne : r.head ≠ r.tail) :
    let r' := { r with head := (r.head + r.size - 1) % r.size }
    r'.InRange ∧ r'.used + 1 = r.used ∧ r.contents = r'.contents ++ [r.buf ((r.head + r.size - 1) % r.size)] := by
  intro r'
  have hh := h.head_lt
  have ht := h.tail_lt
  have hprev : r'.head = if 0 < r.head then r.head - 1 else r.size - 1 := by
    show (r.head + r.size - 1) % r.size = _
    rw [mod_of_lt_two_mul (by omega)]
    repeat' split
    all_goals omega
  have h' : r'.InRange := ⟨Nat.mod_lt _ (by omega),ht⟩
  have hused : r'.used + 1 = r.used := by
    rw [h'.used_eq,h.used_eq,hprev]
    show (if r.tail ≤ _ then _ - r.tail else _ + r.size - r.tail) + 1 = _
    repeat' split
    all_goals omega
  have hput : r'.put (r.buf ((r.head + r.size - 1) % r.size)) = r := by
    have hnext : (r'.head + 1) % r.size = r.head := by
      rw [hprev,mod_of_lt_two_mul (by split <;> omega)]
      repeat' split
      all_goals omega
    cases r
    simp only [put,r'] at hnext ⊢
    rw [hnext,Function.update_eq_self]
  refine ⟨h',hused,?_⟩
  rw [← h'.contents_put _ (by rw [hused]; exact h.used_lt),hput]

theorem contents_erase (h : r.InRange) (kill : Bool) (fuel : Nat) :
    (erase kill fuel r).InRange ∧ (erase kill fuel r).size = r.size ∧
      ∃ gone, r.contents = (erase kill fuel r).contents ++ gone ∧ ∀ c ∈ gone, delimiter c = false := by
  induction fuel generalizing r with
  | zero => exact ⟨h,rfl,[],by simp [erase],by simp⟩
  | succ fuel ih =>
    rw [erase]
    split
    · exact ⟨h,rfl,[],by simp,by simp⟩
    rename_i hne
    obtain ⟨h',-,hc⟩ := contents_retract h hne
    dsimp only
    split
    · exact ⟨h,rfl,[],by simp,by simp⟩
    rename_i hd
    have hd := Bool.not_eq_true _ |>.mp hd
    split
    · obtain ⟨hin,hsize,gone,hgone,hno⟩ := ih h'
      refine ⟨hin,hsize,gone ++ [_],by rw [hc,hgone,append_assoc],fun c hm => ?_⟩
      cases mem_append.mp hm with
      | inl hm => exact hno c hm
      | inr hm => exact mem_singleton.mp hm ▸ hd
    · exact ⟨h',rfl,[_],hc,fun c hm => mem_singleton.mp hm ▸ hd⟩

theorem drain_line (h : r.InRange) (hc : r.contents = line ++ d :: rest) (hline : ∀ c ∈ line, delimiter c = false)
    (hd : delimiter d = true) (room lines : Nat) :
    (drain true room r lines).1 = (line ++ if d = 10 then [10] else []).take room ∧
    (drain true room r lines).2.1.InRange ∧ (drain true room r lines).2.1.size = r.size ∧
    (drain true room r lines).2.1.contents = (if room ≤ line.length then r.contents.drop room else rest) ∧
    (drain true room r lines).2.2 = if room ≤ line.length then lines else lines - 1 := by
  induction room generalizing r line with
  | zero => simp [drain,h]
  | succ room ih =>
    have hne : r.contents ≠ [] := by simp [hc]
    have hpos : 0 < r.used := by
      rw [← contents_length]
      exact length_pos_of_ne_nil hne
    have h' : ({ r with tail := (r.tail + 1) % r.size } : RingBuffer UInt8).InRange :=
      ⟨h.head_lt,Nat.mod_lt _ (Nat.lt_of_le_of_lt (Nat.zero_le _) h.head_lt)⟩
    have hadv := h.contents_advance hpos
    rw [hc] at hadv
    rw [drain,if_neg fun heq => hne (h.contents_eq_nil.mpr heq.symm)]
    cases line with
    | nil =>
      obtain ⟨hbuf,hrest⟩ := cons.inj hadv
      simp only [delimiter,Bool.or_eq_true,decide_eq_true_eq] at hd
      cases hd with
      | inl hd => simp [← hbuf,hd,h',hrest]
      | inr hd => simp [← hbuf,hd,h',hrest]
    | cons c line =>
      obtain ⟨hbuf,hrest⟩ := cons.inj hadv
      have hrest : line ++ d :: rest = _ := hrest
      have hcd := hline c mem_cons_self
      simp only [delimiter,Bool.or_eq_false_iff,decide_eq_false_iff_not] at hcd
      obtain ⟨h1,h2,h3,h4,h5⟩ := ih h' hrest.symm fun x hx => hline x (mem_cons_of_mem c hx)
      simp only [← hbuf,hcd,and_false,if_false]
      refine ⟨by rw [h1]; rfl,h2,h3,?_,?_⟩
      · rw [h4,hc,length_cons,cons_append,drop_succ_cons,hrest]
        simp only [Nat.succ_le_succ_iff]
      · rw [h5,length_cons]
        simp only [Nat.add_le_add_iff_right]

theorem contents_feed (h : s.rx.InRange) (c : UInt8) :
    let s' := (s.feedInput c).1
    s'.rx.InRange ∧ s'.rx.size = s.rx.size ∧ s'.term = s.term ∧
    ((∃ gone, s.rx.contents = s'.rx.contents ++ gone ∧ (∀ c ∈ gone, delimiter c = false) ∧
        s'.linesAvailable = s.linesAvailable) ∨
      ∃ c', s'.rx.contents = s.rx.contents ++ [c'] ∧ s'.linesAvailable =
        if s.term.canonical ∧ delimiter c' then s.linesAvailable + 1 else s.linesAvailable) := by
  intro s'
  generalize hs' : s' = t
  simp only [s',feedInput] at hs'
  generalize (if c = 13 ∧ s.term.icrnl then (10 : UInt8) else c) = c at hs'
  split at hs'
  · subst hs'
    obtain ⟨hin,hsize,hgone,hc,hno⟩ := contents_erase h (c = 21) s.rx.used
    exact ⟨hin,hsize,rfl,Or.inl ⟨hgone,hc,hno,rfl⟩⟩
  split at hs'
  · subst hs'
    exact ⟨h,rfl,rfl,Or.inl ⟨[],by simp,by simp,rfl⟩⟩
  rename_i hfull
  have hroom : s.rx.used + 1 < s.rx.size := by
    have hh := h.head_lt
    have ht := h.tail_lt
    have hnext : (s.rx.head + 1) % s.rx.size ≠ s.rx.tail := fun heq => hfull (Or.inl heq)
    rw [mod_of_lt_two_mul (by omega)] at hnext
    rw [h.used_eq]
    split at hnext <;> split <;> omega
  have hput := h.contents_put c hroom
  generalize hlines : (if s.term.canonical = true ∧ delimiter c = true then _ else _) = lines at hs'
  split at hs'
  all_goals
    subst hs'
    exact ⟨h.put c,rfl,rfl,Or.inr ⟨c,hput,hlines.symm⟩⟩

/-- The count is that of the delimiters in the ring. -/
structure Counted (s : Tty) : Prop where
  canonical : s.term.canonical = true
  ring : s.rx.InRange
  size : s.rx.size = 1024
  lines : s.linesAvailable = (s.rx.contents.filter delimiter).length

theorem Counted.feed (h : s.Counted) (c : UInt8) : (s.feedInput c).1.Counted := by
  obtain ⟨hin,hsize,hterm,hcases⟩ := contents_feed h.ring c
  refine ⟨hterm ▸ h.canonical,hin,hsize.trans h.size,?_⟩
  cases hcases with
  | inl hgone =>
    obtain ⟨gone,hc,hno,hl⟩ := hgone
    have hnil : gone.filter delimiter = [] := filter_eq_nil_iff.mpr fun c hm => by simp [hno c hm]
    rw [hl,h.lines,hc,filter_append,hnil,append_nil]
  | inr hput =>
    obtain ⟨c',hc,hl⟩ := hput
    rw [hl,hc,filter_append,length_append,← h.lines,h.canonical]
    cases hd : delimiter c' with
    | false => simp [hd]
    | true => simp [hd]

theorem Counted.ready_iff (h : s.Counted) (size : Nat) :
    s.ready size = true ↔ ∃ c ∈ s.rx.contents, delimiter c = true := by
  rw [ready,if_pos h.canonical,h.lines,decide_eq_true_eq,Ne,length_eq_zero_iff,filter_eq_nil_iff]
  simp

theorem exists_line {xs : List UInt8} (h : ∃ c ∈ xs, delimiter c = true) :
    ∃ line d rest, xs = line ++ d :: rest ∧ (∀ c ∈ line, delimiter c = false) ∧ delimiter d = true := by
  induction xs with
  | nil => simp at h
  | cons x xs ih =>
    cases hx : delimiter x with
    | true => exact ⟨[],x,xs,rfl,by simp,hx⟩
    | false =>
      obtain ⟨line,d,rest,hxs,hline,hd⟩ := ih (by simpa [hx] using h)
      refine ⟨x :: line,d,rest,by rw [hxs]; rfl,fun c hc => ?_,hd⟩
      cases mem_cons.mp hc with
      | inl hc => exact hc ▸ hx
      | inr hc => exact hline c hc

theorem Counted.read (h : s.Counted) {size : Nat} (hready : s.ready size = true) :
    ∃ line d rest, s.rx.contents = line ++ d :: rest ∧ (∀ c ∈ line, delimiter c = false) ∧ delimiter d = true ∧
      (s.read size).1 = (line ++ if d = 10 then [10] else []).take size ∧
      (s.read size).2.rx.contents = (if size ≤ line.length then s.rx.contents.drop size else rest) ∧
      (s.read size).2.Counted := by
  obtain ⟨line,d,rest,hc,hline,hd⟩ := exists_line ((h.ready_iff size).mp hready)
  obtain ⟨h1,h2,h3,h4,h5⟩ := drain_line h.ring hc hline hd size s.linesAvailable
  rw [← h.canonical] at h1 h2 h3 h4 h5
  refine ⟨line,d,rest,hc,hline,hd,h1,h4,h.canonical,h2,h3.trans h.size,?_⟩
  rw [show (s.read size).2.linesAvailable = _ from h5,show (s.read size).2.rx.contents = _ from h4,h.lines]
  have hnil : ∀ k, (line.drop k).filter delimiter = [] := fun k =>
    filter_eq_nil_iff.mpr fun c hm => by simp [hline c (mem_of_mem_drop hm)]
  split
  · rename_i hle
    have h0 := hnil 0
    rw [drop_zero] at h0
    rw [hc,drop_append_of_le_length hle,filter_append,filter_append,hnil,h0]
  have h0 := hnil 0
  rw [drop_zero] at h0
  rw [hc,filter_append,h0]
  simp [hd]

end Tty

/-- The terminal, and all that was read from it, with the EOF characters. -/
structure Session where
  tty : Tty
  taken : List UInt8

namespace Session
variable {s : Session}

inductive Event where
  | feed (c : UInt8)
  | read (size : Nat)
  | tcsets (term : Termios)

/-- A read that has to wait does nothing yet. -/
def step (s : Session) : Event → Session
  | .feed c => { s with tty := (s.tty.feedInput c).1 }
  | .read size =>
    if size = 0 ∨ s.tty.ready size = false then s
    else
      let rest := (s.tty.read size).2
      ⟨rest,s.taken ++ s.tty.rx.contents.take (s.tty.rx.used - rest.rx.used)⟩
  | .tcsets term => { s with tty := { s.tty with term := term } }

def machine : Machine Session Event := ⟨⟨.create,[]⟩,step⟩

/-- Canonical mode stays on, and where `whole`, a read has room for all that can be in the ring. -/
def Event.Orderly (whole : Bool) : Event → Prop
  | .feed _ => True
  | .read size => whole = true → 1024 ≤ size
  | .tcsets term => term.canonical = true

/-- What was read ends where a line does. -/
def AtStart (s : Session) : Prop := ∀ c, s.taken.getLast? = some c → delimiter c = true

structure Sound (whole : Bool) (s : Session) : Prop where
  counted : s.tty.Counted
  start : whole = true → s.AtStart

theorem Sound.step {whole : Bool} (h : s.Sound whole) (e : Event) (he : e.Orderly whole) : (s.step e).Sound whole := by
  cases e with
  | feed c => exact ⟨h.counted.feed c,h.start⟩
  | tcsets term => exact ⟨⟨he,h.counted.ring,h.counted.size,h.counted.lines⟩,h.start⟩
  | read size =>
    unfold Session.step
    dsimp only
    split
    · exact h
    rename_i hgo
    rw [not_or,Bool.not_eq_false] at hgo
    obtain ⟨line,d,rest,hc,-,hd,-,hafter,hcounted⟩ := h.counted.read hgo.2
    refine ⟨hcounted,fun hw c hlast => ?_⟩
    have hlen := congrArg length hc
    have hroom : ¬size ≤ line.length := by
      have := h.counted.ring.used_lt
      have := h.counted.size
      have := he hw
      simp only [contents_length,length_append,length_cons] at hlen
      omega
    rw [if_neg hroom] at hafter
    have hused := congrArg length hafter
    simp only [contents_length,length_append,length_cons] at hused hlen
    have htake : s.tty.rx.used - (s.tty.read size).2.rx.used = (line ++ [d]).length := by
      rw [length_append,length_singleton]
      omega
    rw [htake,hc.trans (append_cons line d rest),take_left,← append_assoc,getLast?_concat] at hlast
    exact Option.some.inj hlast ▸ hd

theorem sound_of_orderly {whole : Bool} (es : List Event) (h : ∀ e ∈ es, e.Orderly whole) :
    (machine.run es).Sound whole := by
  have hall : ∀ s : Session, machine.Along (fun _ e => e.Orderly whole) s es := by
    induction es with
    | nil => exact fun _ => trivial
    | cons e es ih => exact fun s => ⟨h e mem_cons_self,ih (fun x hx => h x (mem_cons_of_mem e hx)) _⟩
  refine machine.runFrom_invariant _ (fun s e hs he => hs.step e he) ⟨⟨rfl,⟨?_,?_⟩,rfl,rfl⟩,?_⟩ es (hall _)
  · show 0 < 1024
    decide
  · show 0 < 1024
    decide
  · exact fun _ c hc => by simp [machine] at hc

/-- In canonical mode the count is that of the delimiters in the ring. A read waits exactly if there is no line, and
gets no more than the first one; it returns nothing only for an EOF character. Input takes no byte of a complete
line from the ring. -/
theorem line_accounting {whole : Bool} (es : List Event) (h : ∀ e ∈ es, e.Orderly whole) :
    let s := machine.run es
    s.tty.linesAvailable = (s.tty.rx.contents.filter delimiter).length ∧
    (∀ size, s.tty.ready size = true ↔ ∃ c ∈ s.tty.rx.contents, delimiter c = true) ∧
    (∀ size, size ≠ 0 → s.tty.ready size = true →
      ∃ line d rest, s.tty.rx.contents = line ++ d :: rest ∧ (∀ c ∈ line, delimiter c = false) ∧ delimiter d = true ∧
        (s.tty.read size).1 = (line ++ if d = 10 then [10] else []).take size ∧
        (s.tty.read size).2.rx.contents = (if size ≤ line.length then s.tty.rx.contents.drop size else rest) ∧
        ((s.tty.read size).1 = [] → line = [] ∧ d = 4 ∧ (whole = true → s.AtStart))) ∧
    ∀ c, (∃ gone, s.tty.rx.contents = (s.tty.feedInput c).1.rx.contents ++ gone ∧ ∀ x ∈ gone, delimiter x = false) ∨
      ∃ x, (s.tty.feedInput c).1.rx.contents = s.tty.rx.contents ++ [x] := by
  intro s
  have hs := sound_of_orderly es h
  refine ⟨hs.counted.lines,hs.counted.ready_iff,fun size hsize hready => ?_,fun c => ?_⟩
  · obtain ⟨line,d,rest,hc,hline,hd,hout,hafter,-⟩ := hs.counted.read hready
    refine ⟨line,d,rest,hc,hline,hd,hout,hafter,fun hnil => ?_⟩
    rw [hout,take_eq_nil_iff,or_iff_right hsize,append_eq_nil_iff] at hnil
    have hd10 : d ≠ 10 := fun heq => by simp [heq] at hnil
    simp only [delimiter,Bool.or_eq_true,decide_eq_true_eq,hd10,false_or] at hd
    exact ⟨hnil.1,hd,hs.start⟩
  obtain ⟨-,-,-,hcases⟩ := Tty.contents_feed hs.counted.ring c
  cases hcases with
  | inl hgone =>
    obtain ⟨gone,hc,hno,-⟩ := hgone
    exact Or.inl ⟨gone,hc,hno⟩
  | inr hput =>
    obtain ⟨x,hx,-⟩ := hput
    exact Or.inr ⟨x,hx⟩

theorem line_accounting_typed :
    let s := machine.run [.feed 97,.feed 10,.feed 98,.feed 21,.read 1024,.feed 4]
    s.tty.linesAvailable = (s.tty.rx.contents.filter delimiter).length :=
  (@line_accounting true _ (by simp [Event.Orderly])).1

/-- A newline that comes while canonical mode is off is not counted: with a complete line in the ring a read
waits. -/
theorem raw_newline_uncounted :
    let s := machine.run [.tcsets ⟨false,true,1⟩,.feed 97,.feed 10,.tcsets ⟨true,true,1⟩]
    s.tty.linesAvailable = 0 ∧ s.tty.rx.contents = [97,10] ∧ s.tty.ready 100 = false := by
  decide +kernel

end Session

/-!
Threads in `tty_read`, which share one place to be waited for in. What is done under `g_tty_lock` is one step.
-/

open Option

/-- Where a thread is: before the check of the read condition, blocked, or unblocked in `schedule`. -/
inductive Phase where
  | outside
  | entering (size : Nat)
  | blocked (size : Nat)
  | woken (size : Nat)
  deriving DecidableEq

/-- The threads, and those of them with a fatal signal. -/
structure Readers where
  tty : Tty
  threads : List Phase
  fatal : List Nat

namespace Readers
variable {s : Readers} {t size : Nat}

def phase (s : Readers) (t : Nat) : Phase := s.threads.getD t .outside

def move (s : Readers) (t : Nat) (p : Phase) : Readers := { s with threads := s.threads.set t p }

/-- `unblock`, of a thread that is blocked. -/
def wake (s : Readers) (t : Nat) : Readers :=
  match s.phase t with
  | .blocked size => s.move t (.woken size)
  | _ => s

def clear (s : Readers) (t : Nat) : Readers :=
  if s.tty.waiting = some t then { s with tty := { s.tty with waiting := none } } else s

/-- The section of the loop that ends with the bytes, an error or the thread blocked. -/
def check (s : Readers) (t size : Nat) : Readers :=
  let s := s.clear t
  if t ∈ s.fatal then s.move t .outside
  else if s.tty.ready size then { s.move t .outside with tty := (s.tty.read size).2 }
  else { s.move t (.blocked size) with tty := { s.tty with waiting := some t } }

def feed (s : Readers) (c : UInt8) : Readers :=
  let r := s.tty.feedInput c
  let s := { s with tty := r.1 }
  match r.2 with
  | none => s
  | some t => s.wake t

inductive Event where
  | enter (t size : Nat)
  | run (t : Nat)
  | feed (c : UInt8)
  | tcsets (term : Termios)
  | kill (t : Nat)

def step (s : Readers) : Event → Readers
  | .enter t size => if size = 0 ∨ s.phase t ≠ .outside then s else s.move t (.entering size)
  | .run t =>
    match s.phase t with
    | .entering size => s.check t size
    | .woken size => (s.clear t).move t (.entering size)
    | _ => s
  | .feed c => s.feed c
  | .tcsets term => { s with tty := { s.tty with term := term } }
  | .kill t => { s.wake t with fatal := t :: s.fatal }

def machine (n : Nat) : Machine Readers Event := ⟨⟨.create,replicate n .outside,[]⟩,step⟩

/-- One thread reads at a time, and nobody changes the mode meanwhile. -/
def Alone (s : Readers) : Event → Prop
  | .enter _ _ => ∀ p ∈ s.threads, p = .outside
  | .tcsets _ => ∀ p ∈ s.threads, p = .outside
  | _ => True

/-- A thread that is blocked is the one that is waited for, and has nothing to read. -/
structure Sound (s : Readers) : Prop where
  single : ∀ t u, s.phase t ≠ .outside → s.phase u ≠ .outside → t = u
  waits : ∀ t size, s.phase t = .blocked size → s.tty.waiting = some t ∧ s.tty.ready size = false

theorem phase_move (s : Readers) (t u : Nat) (p : Phase) :
    (s.move t p).phase u = if u = t ∧ t < s.threads.length then p else s.phase u := by
  simp only [phase,move,getD_eq_getElem?_getD,getElem?_set]
  by_cases h : t = u
  · subst h
    by_cases hlt : t < s.threads.length
    · simp [hlt]
    · simp [hlt]
  · simp [h,Ne.symm h]

theorem lt_of_inside (h : s.phase t ≠ .outside) : t < s.threads.length := by
  by_contra hge
  exact h (by simp [phase,Nat.not_lt.mp hge])

theorem Sound.move (h : s.Sound) (ht : s.phase t ≠ .outside) {p : Phase} {x : Tty}
    (hp : ∀ size, p = .blocked size → x.waiting = some t ∧ x.ready size = false) :
    { s.move t p with tty := x : Readers }.Sound := by
  have hphase : ∀ u, ({ s.move t p with tty := x } : Readers).phase u = if u = t then p else s.phase u := by
    intro u
    exact (phase_move s t u p).trans (by simp [lt_of_inside ht])
  have hother : ∀ u, u ≠ t → s.phase u = .outside := by
    intro u hu
    by_contra hin
    exact hu (h.single u t hin ht)
  have honly : ∀ u, ({ s.move t p with tty := x } : Readers).phase u ≠ .outside → u = t := by
    intro u hu
    by_contra hne
    rw [hphase,if_neg hne] at hu
    exact hu (hother u hne)
  refine ⟨fun u v hu hv => (honly u hu).trans (honly v hv).symm,fun u size hu => ?_⟩
  obtain rfl := honly u fun hout => by simp [hu] at hout
  rw [hphase,if_pos rfl] at hu
  exact hp size hu

theorem Sound.clear (h : s.Sound) (ht : ∀ size, s.phase t ≠ .blocked size) : (s.clear t).Sound := by
  unfold Readers.clear
  split
  · rename_i hw
    refine ⟨h.single,fun u size hu => absurd hu fun hu => ?_⟩
    obtain ⟨hwu,-⟩ := h.waits u size hu
    exact ht size (some.inj (hwu.symm.trans hw) ▸ hu)
  · exact h

theorem phase_clear (s : Readers) (t u : Nat) : (s.clear t).phase u = s.phase u := by
  unfold Readers.clear
  split
  · rfl
  · rfl

theorem feed_waiting {tty : Tty} (hwaits : tty.waiting = some t) (hready : tty.ready size = false) (c : UInt8) :
    (tty.feedInput c).2 = some t ∨
    (tty.feedInput c).2 = none ∧ (tty.feedInput c).1.waiting = some t ∧ (tty.feedInput c).1.ready size = false := by
  simp only [Tty.feedInput]
  generalize (if c = 13 ∧ tty.term.icrnl then (10 : UInt8) else c) = c
  split
  · rename_i herase
    refine Or.inr ⟨rfl,hwaits,?_⟩
    simpa [Tty.ready,herase.1] using hready
  split
  · exact Or.inr ⟨rfl,hwaits,hready⟩
  generalize (if tty.term.canonical = true ∧ delimiter c = true then _ else _) = lines
  split
  · exact Or.inl hwaits
  rename_i hno
  simp only [hwaits,isSome_some,true_and,not_or,Bool.not_eq_false,not_not] at hno
  exact Or.inr ⟨rfl,hwaits,by simp [Tty.ready,hno.1,hno.2]⟩

theorem phase_wake (s : Readers) (t u : Nat) : ((s.wake t).phase u ≠ .outside → s.phase u ≠ .outside) ∧
    (∀ size, (s.wake t).phase u = .blocked size → u ≠ t ∧ s.phase u = .blocked size) ∧
    ∀ size, s.phase t = .blocked size → (s.wake t).phase t = .woken size := by
  unfold wake
  split
  · rename_i n hb
    have hlt : t < s.threads.length := lt_of_inside (by simp [hb])
    simp only [phase_move,hlt,and_true]
    refine ⟨fun hu => ?_,fun m hu => ?_,fun m hm => ?_⟩
    · by_cases htu : u = t
      · simp [htu,hb]
      · simpa [htu] using hu
    · by_cases htu : u = t
      · simp [htu] at hu
      · exact ⟨htu,by simpa [htu] using hu⟩
    · simpa using Phase.blocked.inj (hb.symm.trans hm)
  · rename_i hb
    refine ⟨id,fun m hu => ⟨fun htu => hb m (htu ▸ hu),hu⟩,fun m hm => absurd hm (hb m)⟩

theorem Sound.feed (h : s.Sound) (c : UInt8) : (s.feed c).Sound := by
  unfold Readers.feed
  dsimp only
  split
  · rename_i hnone
    refine ⟨h.single,fun u size hu => ?_⟩
    obtain ⟨hw,hr⟩ := h.waits u size hu
    cases feed_waiting hw hr c with
    | inl hwoken => cases hnone.symm.trans hwoken
    | inr hquiet => exact hquiet.2
  rename_i t hsome
  have hin := fun u => (phase_wake { s with tty := (s.tty.feedInput c).1 } t u).1
  refine ⟨fun u v hu hv => h.single u v (hin u hu) (hin v hv),fun u size hu => ?_⟩
  obtain ⟨hne,hblocked⟩ := (phase_wake _ t u).2.1 size hu
  obtain ⟨hw,hr⟩ := h.waits u size hblocked
  cases feed_waiting hw hr c with
  | inl hwoken => exact absurd (some.inj (hwoken.symm.trans hsome)) hne
  | inr hquiet => cases hsome.symm.trans hquiet.1

theorem Sound.check (h : s.Sound) (ht : s.phase t = .entering size) : (s.check t size).Sound := by
  have hin : (s.clear t).phase t ≠ .outside := by simp [phase_clear,ht]
  have hclear := h.clear (t := t) fun n => by simp [ht]
  unfold Readers.check
  dsimp only
  split
  · exact hclear.move hin (p := .outside) (x := (s.clear t).tty) fun n hn => by cases hn
  split
  · exact hclear.move hin fun n hn => by cases hn
  rename_i hnot
  refine hclear.move hin fun n hn => ⟨rfl,?_⟩
  obtain rfl := Phase.blocked.inj hn
  exact Bool.not_eq_true _ |>.mp hnot

theorem Sound.step (h : s.Sound) (e : Event) (halone : s.Alone e) : (s.step e).Sound := by
  have hempty : (∀ p ∈ s.threads, p = .outside) → ∀ u, s.phase u = .outside := by
    intro hall u
    by_contra hu
    have hlt := lt_of_inside hu
    exact hu (by simpa [phase,hlt] using hall _ (getElem_mem hlt))
  cases e with
  | enter t size =>
    have hout := hempty halone
    unfold Readers.step
    dsimp only
    split
    · exact h
    have hphase := fun u => phase_move s t u (.entering size)
    have honly : ∀ u, (s.move t (.entering size)).phase u ≠ .outside → u = t := by
      intro u hu
      by_contra hne
      exact hu (by simp [hphase,hne,hout])
    refine ⟨fun u v hu hv => (honly u hu).trans (honly v hv).symm,fun u n hu => ?_⟩
    rw [hphase,hout] at hu
    split at hu
    · cases hu
    · cases hu
  | run t =>
    unfold Readers.step
    dsimp only
    split
    · exact h.check (by assumption)
    · rename_i n hn
      have hclear := h.clear (t := t) fun m => by simp [hn]
      exact hclear.move (t := t) (x := (s.clear t).tty) (by simp [phase_clear,hn]) fun m hm => by cases hm
    · exact h
  | feed c => exact h.feed c
  | tcsets term =>
    have hout := hempty halone
    exact ⟨h.single,fun u n hu => by cases (hout u).symm.trans hu⟩
  | kill t =>
    refine ⟨fun u v hu hv => h.single u v ((phase_wake s t u).1 hu) ((phase_wake s t v).1 hv),fun u n hu => ?_⟩
    have htty : (s.wake t).tty = s.tty := by
      unfold wake
      split
      · rfl
      · rfl
    show (s.wake t).tty.waiting = some u ∧ (s.wake t).tty.ready n = false
    rw [htty]
    exact h.waits u n ((phase_wake s t u).2.1 n hu).2

/-- Where one thread reads at a time and the mode stays meanwhile, a thread that is blocked has nothing to read,
and the input that gives it something wakes it. -/
theorem readers_woken (n : Nat) (es : List Event) (hok : (machine n).Along Alone (machine n).initial es) :
    let s := (machine n).run es
    ∀ t size, s.phase t = .blocked size → s.tty.ready size = false ∧
      ∀ c, (s.step (.feed c)).tty.ready size = true → (s.step (.feed c)).phase t = .woken size := by
  intro s t size ht
  have h : s.Sound := by
    refine (machine n).runFrom_invariant Alone (fun s e hs ha => hs.step e ha) ?_ es hok
    have hout : ∀ u, (machine n).initial.phase u = .outside := fun u => by
      simp [machine,phase,getElem?_replicate]
      grind
    exact ⟨fun u v hu => absurd (hout u) hu,fun u m hu => by cases (hout u).symm.trans hu⟩
  obtain ⟨hw,hr⟩ := h.waits t size ht
  refine ⟨hr,fun c hready => ?_⟩
  simp only [Readers.step,Readers.feed] at hready ⊢
  cases feed_waiting hw hr c with
  | inl hwoken =>
    simp only [hwoken]
    exact (phase_wake _ t t).2.2 size ht
  | inr hquiet =>
    simp only [hquiet.1] at hready
    cases hquiet.2.2.symm.trans hready

/-- One thread reads a line, and then the other waits for its own. -/
def turns : List Event :=
  [.enter 0 10,.run 0,.feed 97,.feed 10,.run 0,.run 0,.enter 1 10,.run 1,.feed 98]

theorem readers_woken_turns :
    let s := (machine 2).run turns
    s.threads = [.outside,.blocked 10] ∧ s.tty.ready 10 = false ∧
      ∀ c, (s.step (.feed c)).tty.ready 10 = true → (s.step (.feed c)).phase 1 = .woken 10 := by
  have hok : (machine 2).Along Alone (machine 2).initial turns :=
    ⟨by unfold Alone; decide,trivial,trivial,trivial,trivial,trivial,by unfold Alone; decide,trivial,trivial,trivial⟩
  exact ⟨by decide,readers_woken 2 turns hok 1 10 (by decide)⟩

/-- Of two threads that wait the second takes the place of the first, which is left blocked with a line to read
that nobody else is there for, and which later input does not wake. -/
theorem reader_forgotten :
    let s := (machine 2).run
      [.enter 0 10,.run 0,.enter 1 10,.run 1,.feed 97,.feed 10,.feed 98,.feed 10,.run 1,.run 1]
    s.threads = [.blocked 10,.outside] ∧ s.tty.ready 10 = true ∧
    ((s.step (.feed 99)).step (.feed 10)).phase 0 = .blocked 10 := by
  decide +kernel

end Readers
end Rucux.Vfs
