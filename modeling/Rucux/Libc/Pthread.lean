import Mathlib.Data.BitVec
import Rucux.Lib.Machine
import Rucux.Lib.Slots

/-!
Mutexes, condition variables and read-write locks of the C library, over futexes. A thread makes one
access to the words in a step, or one futex call: `FUTEX_WAIT` compares and goes to sleep at once,
`FUTEX_WAKE` takes as many sleepers out as it is asked for, and the event says which.
-/

namespace Rucux.Libc
open Lib Function

/-- A mutex of the program, or the one inside of a read-write lock. -/
inductive Mutex where
  | plain (i : Nat)
  | inner (r : Nat)
  deriving DecidableEq

inductive Word where
  | mutex (m : Mutex)
  | seq (c : Nat)
  deriving DecidableEq

inductive Caller where
  | program (i : Nat)
  | condWait (c i : Nat)
  | rdlock (r : Nat)
  | wrlock (r : Nat)
  | unlock (r : Nat)
  deriving DecidableEq

def Caller.mutex : Caller → Mutex
  | .program i | .condWait _ i => .plain i
  | .rdlock r | .wrlock r | .unlock r => .inner r

/-- What follows `pthread_mutex_unlock`: nothing, the wait on a condition with the sequence number that
was read and the signals so far, or another round of a read-write lock. -/
inductive Next where
  | done
  | condWait (c i : Nat) (seq : BitVec 32) (ticket : Nat)
  | rdlock (r : Nat)
  | wrlock (r : Nat)
  deriving DecidableEq

/-- Where a thread is: what it does next. `woken` says that a wake has got it out of its sleep. -/
inductive Phase where
  | idle
  | locking (k : Caller) (woken : Bool)
  | waiting (k : Caller)
  | asleep (k : Caller)
  | unlocking (m : Mutex) (k : Next)
  | waking (m : Mutex) (k : Next)
  | condReading (c i : Nat)
  | condWaiting (c i : Nat) (seq : BitVec 32) (ticket : Nat)
  | condAsleep (c i : Nat) (ticket : Nat)
  | signalling (c : Nat) (broadcast : Bool)
  | condWaking (c : Nat) (broadcast : Bool) (ticket : Nat)
  | rdCheck (r : Nat)
  | rdLoad (r : Nat)
  | rdStore (r : Nat) (readers : BitVec 32)
  | wrCheck (r : Nat)
  | wrCheckReaders (r : Nat)
  | wrStore (r : Nat)
  | unCheck (r : Nat)
  | unWriter (r : Nat)
  | unLoad (r : Nat)
  | unStore (r : Nat) (readers : BitVec 32)
  deriving DecidableEq

namespace Phase

def sleepsOn : Phase → Option Word
  | .asleep k => some (.mutex k.mutex)
  | .condAsleep c _ _ => some (.seq c)
  | _ => none

/-- The signals there had been when a thread read the sequence number of `c`, until it is past its
sleep. -/
def ticket (c : Nat) : Phase → Option Nat
  | .unlocking _ (.condWait d _ _ ticket) | .waking _ (.condWait d _ _ ticket)
  | .condWaiting d _ _ ticket | .condAsleep d _ ticket => if d = c then some ticket else none
  | _ => none

/-- A thread that is past its sleep on `c`, and gets its mutex back. -/
def relocks (c : Nat) : Phase → Bool
  | .locking (.condWait d _) _ | .waiting (.condWait d _) | .asleep (.condWait d _) => d = c
  | _ => false

end Phase

/-- Beside the words there are the mutexes and read-write locks that each thread has, the number of
signals of each condition so far, and the number it had when a broadcast was sent that has returned. -/
structure Pthreads (n : Nat) where
  words : Word → BitVec 32
  readers : Nat → BitVec 32
  writer : Nat → BitVec 32
  queues : Word → List (Fin n)
  phases : Fin n → Phase
  held : Fin n → List Mutex
  reads : Fin n → List Nat
  writes : Fin n → List Nat
  total : Nat → Nat
  flushed : Nat → Nat

namespace Pthreads
variable {n : Nat}

def setPhase (s : Pthreads n) (t : Fin n) (p : Phase) : Pthreads n :=
  { s with phases := update s.phases t p }

def setWord (s : Pthreads n) (w : Word) (x : BitVec 32) : Pthreads n :=
  { s with words := update s.words w x }

def futexWait (s : Pthreads n) (t : Fin n) (w : Word) (val : BitVec 32) (asleep awake : Phase) :
    Pthreads n :=
  if s.words w = val then
    { s.setPhase t asleep with queues := update s.queues w (s.queues w ++ [t]) }
  else s.setPhase t awake

def wakeUp : Phase → Phase
  | .asleep k => .locking k true
  | .condAsleep c i _ => .locking (.condWait c i) false
  | p => p

def futexWake (s : Pthreads n) (w : Word) (sel : List (Fin n)) : Pthreads n :=
  { s with
    queues := update s.queues w ((s.queues w).filter (· ∉ sel))
    phases := fun u => if u ∈ sel then wakeUp (s.phases u) else s.phases u }

def compareAndSwap (s : Pthreads n) (t : Fin n) (k : Caller) : Pthreads n :=
  if s.words (.mutex k.mutex) = 0 then
    let s := s.setWord (.mutex k.mutex) 1
    let s := { s with held := update s.held t (k.mutex :: s.held t) }
    match k with
    | .program _ | .condWait _ _ => s.setPhase t .idle
    | .rdlock r => s.setPhase t (.rdCheck r)
    | .wrlock r => s.setPhase t (.wrCheck r)
    | .unlock r => s.setPhase t (.unCheck r)
  else s.setPhase t (.waiting k)

def tryLock (s : Pthreads n) (t : Fin n) (i : Nat) : Pthreads n :=
  if s.words (.mutex (.plain i)) = 0 then
    let s := s.setWord (.mutex (.plain i)) 1
    { s with held := update s.held t (.plain i :: s.held t) }
  else s

def clear (s : Pthreads n) (t : Fin n) (m : Mutex) (k : Next) : Pthreads n :=
  let s := s.setWord (.mutex m) 0
  { s.setPhase t (.waking m k) with held := update s.held t ((s.held t).erase m) }

def proceed (s : Pthreads n) (t : Fin n) : Next → Pthreads n
  | .done => s.setPhase t .idle
  | .condWait c i seq ticket => s.setPhase t (.condWaiting c i seq ticket)
  | .rdlock r => s.setPhase t (.locking (.rdlock r) false)
  | .wrlock r => s.setPhase t (.locking (.wrlock r) false)

def signal (s : Pthreads n) (t : Fin n) (c : Nat) (broadcast : Bool) : Pthreads n :=
  let s := s.setWord (.seq c) (s.words (.seq c) + 1)
  { s.setPhase t (.condWaking c broadcast (s.total c + 1)) with
    total := update s.total c (s.total c + 1) }

def condReturn (s : Pthreads n) (t : Fin n) (c : Nat) (broadcast : Bool) (ticket : Nat) : Pthreads n :=
  if broadcast then
    { s.setPhase t .idle with flushed := update s.flushed c (max (s.flushed c) ticket) }
  else s.setPhase t .idle

def storeReaders (s : Pthreads n) (r : Nat) (x : BitVec 32) : Pthreads n :=
  { s with readers := update s.readers r x }

def storeWriter (s : Pthreads n) (r : Nat) (x : BitVec 32) : Pthreads n :=
  { s with writer := update s.writer r x }

def leave (s : Pthreads n) (t : Fin n) (r : Nat) (k : Next) : Pthreads n :=
  s.setPhase t (.unlocking (.inner r) k)

def next (s : Pthreads n) (t : Fin n) : Pthreads n :=
  match s.phases t with
  | .idle | .asleep _ | .condAsleep _ _ _ | .waking _ _ | .condWaking _ _ _ => s
  | .locking k _ => s.compareAndSwap t k
  | .waiting k => s.futexWait t (.mutex k.mutex) 1 (.asleep k) (.locking k false)
  | .unlocking m k => s.clear t m k
  | .condReading c i =>
    s.setPhase t (.unlocking (.plain i) (.condWait c i (s.words (.seq c)) (s.total c)))
  | .condWaiting c i seq ticket =>
    s.futexWait t (.seq c) seq (.condAsleep c i ticket) (.locking (.condWait c i) false)
  | .signalling c broadcast => s.signal t c broadcast
  | .rdCheck r => if s.writer r ≠ 0 then s.leave t r (.rdlock r) else s.setPhase t (.rdLoad r)
  | .rdLoad r => s.setPhase t (.rdStore r (s.readers r))
  | .rdStore r readers =>
    { (s.storeReaders r (readers + 1)).leave t r .done with
      reads := update s.reads t (r :: s.reads t) }
  | .wrCheck r => if s.writer r ≠ 0 then s.leave t r (.wrlock r) else s.setPhase t (.wrCheckReaders r)
  | .wrCheckReaders r => if s.readers r ≠ 0 then s.leave t r (.wrlock r) else s.setPhase t (.wrStore r)
  | .wrStore r =>
    { (s.storeWriter r 1).leave t r .done with
      writes := update s.writes t (r :: s.writes t) }
  | .unCheck r => if s.writer r ≠ 0 then s.setPhase t (.unWriter r) else s.setPhase t (.unLoad r)
  | .unWriter r =>
    { (s.storeWriter r 0).leave t r .done with
      writes := update s.writes t ((s.writes t).erase r) }
  | .unLoad r =>
    if (0#32).slt (s.readers r) then s.setPhase t (.unStore r (s.readers r)) else s.leave t r .done
  | .unStore r readers =>
    { (s.storeReaders r (readers - 1)).leave t r .done with
      reads := update s.reads t ((s.reads t).erase r) }

def wake (s : Pthreads n) (t : Fin n) (sel : List (Fin n)) : Pthreads n :=
  match s.phases t with
  | .waking m k => (s.futexWake (.mutex m) sel).proceed t k
  | .condWaking c broadcast ticket => (s.futexWake (.seq c) sel).condReturn t c broadcast ticket
  | _ => s

inductive Event (n : Nat) where
  | lock (t : Fin n) (i : Nat)
  | trylock (t : Fin n) (i : Nat)
  | unlock (t : Fin n) (i : Nat)
  | condWait (t : Fin n) (c i : Nat)
  | condSignal (t : Fin n) (c : Nat)
  | condBroadcast (t : Fin n) (c : Nat)
  | rdlock (t : Fin n) (r : Nat)
  | wrlock (t : Fin n) (r : Nat)
  | rwUnlock (t : Fin n) (r : Nat)
  | next (t : Fin n)
  | wake (t : Fin n) (sel : List (Fin n))

def begin (s : Pthreads n) (t : Fin n) (p : Phase) : Pthreads n :=
  if s.phases t = .idle then s.setPhase t p else s

def step (s : Pthreads n) : Event n → Pthreads n
  | .lock t i => s.begin t (.locking (.program i) false)
  | .trylock t i => if s.phases t = .idle then s.tryLock t i else s
  | .unlock t i => s.begin t (.unlocking (.plain i) .done)
  | .condWait t c i => s.begin t (.condReading c i)
  | .condSignal t c => s.begin t (.signalling c false)
  | .condBroadcast t c => s.begin t (.signalling c true)
  | .rdlock t r => s.begin t (.locking (.rdlock r) false)
  | .wrlock t r => s.begin t (.locking (.wrlock r) false)
  | .rwUnlock t r => s.begin t (.locking (.unlock r) false)
  | .next t => s.next t
  | .wake t sel => s.wake t sel

def init (n : Nat) : Pthreads n where
  words := fun _ => 0
  readers := fun _ => 0
  writer := fun _ => 0
  queues := fun _ => []
  phases := fun _ => .idle
  held := fun _ => []
  reads := fun _ => []
  writes := fun _ => []
  total := fun _ => 0
  flushed := fun _ => 0

def machine (n : Nat) : Machine (Pthreads n) (Event n) := ⟨init n,step⟩

def wakeCount (broadcast : Bool) : Nat := if broadcast then 0x7FFFFFFF else 1

def Selects (queue sel : List (Fin n)) (count : Nat) : Prop :=
  sel.Nodup ∧ (∀ u ∈ sel, u ∈ queue) ∧ sel.length = min count queue.length

def WakeOk (s : Pthreads n) (sel : List (Fin n)) : Phase → Prop
  | .waking m _ => Selects (s.queues (.mutex m)) sel 1
  | .condWaking c broadcast _ => Selects (s.queues (.seq c)) sel (wakeCount broadcast)
  | _ => True

/-- Not so many signals in one wait that the sequence number is the same again. -/
def SignalOk (s : Pthreads n) : Phase → Prop
  | .signalling c _ => ∀ u, ∀ k ∈ (s.phases u).ticket c, s.total c + 1 < k + 2^32
  | _ => True

/-- Only who has it unlocks it. -/
def Valid (s : Pthreads n) : Event n → Prop
  | .unlock t i | .condWait t _ i => s.phases t = .idle → .plain i ∈ s.held t
  | .rwUnlock t r => s.phases t = .idle → r ∈ s.reads t ∨ r ∈ s.writes t
  | .next t => s.SignalOk (s.phases t)
  | .wake t sel => s.WakeOk sel (s.phases t)
  | .lock _ _ | .trylock _ _ | .condSignal _ _ | .condBroadcast _ _ | .rdlock _ _ | .wrlock _ _ => True

/-- What the counts of the library have room for: an `int` of readers, and as many sleepers as a
broadcast asks for. -/
def RoomOk (s : Pthreads n) : Phase → Prop
  | .rdStore r _ => (gather s.reads).count r + 1 < 2^31
  | .condWaking c true _ => (s.queues (.seq c)).length ≤ 0x7FFFFFFF
  | _ => True

def Fits (s : Pthreads n) : Event n → Prop
  | .next t | .wake t _ => s.RoomOk (s.phases t)
  | _ => True

def Allowed (s : Pthreads n) (e : Event n) : Prop := s.Valid e ∧ s.Fits e

open List Machine

def sleeping (n k : Nat) : Pthreads n :=
  { init n with
    queues := update (fun _ => []) (.seq 0) ((finRange n).take k)
    phases := fun u => if u.val < k then .condAsleep 0 0 0 else .idle }

def toSleep (t : Fin n) : List (Event n) :=
  [.lock t 0,.next t,.condWait t 0 0,.next t,.next t,.wake t [],.next t]

theorem sleeping_zero : sleeping n 0 = init n := by
  simp [sleeping,init]

def between (k : Nat) (t : Fin n) (p : Phase) (x : BitVec 32) (ms : List Mutex) : Pthreads n :=
  { sleeping n k with
    words := update (fun _ => 0) (.mutex (.plain 0)) x
    phases := update (sleeping n k).phases t p
    held := update (fun _ => []) t ms }

section
variable {k : Nat} {t : Fin n} (ht : t.val = k)
include ht

theorem sleeping_between : sleeping n k = between k t .idle 0 [] := by
  have hphase : (sleeping n k).phases t = .idle := by
    simp [sleeping,ht]
  simp only [between]
  rw [← hphase,update_eq_self]
  simp [sleeping,init]

theorem take_succ : (finRange n).take (k + 1) = (finRange n).take k ++ [t] := by
  subst ht
  rw [take_add_one]
  simp

theorem run_toSleep : (machine n).runFrom (sleeping n k) (toSleep t) = sleeping n (k + 1) ∧
      (machine n).Along Valid (sleeping n k) (toSleep t) := by
  have h1 : (between k t .idle 0 []).step (.lock t 0) = between k t (.locking (.program 0) false) 0 [] := by
    simp [step,begin,between,setPhase]
  have h2 : (between k t (.locking (.program 0) false) 0 []).step (.next t) =
      between k t .idle 1 [.plain 0] := by
    simp [step,next,between,compareAndSwap,Caller.mutex,setPhase,setWord]
  have h3 : (between k t .idle 1 [.plain 0]).step (.condWait t 0 0) =
      between k t (.condReading 0 0) 1 [.plain 0] := by
    simp [step,begin,between,setPhase]
  have h4 : (between k t (.condReading 0 0) 1 [.plain 0]).step (.next t) =
      between k t (.unlocking (.plain 0) (.condWait 0 0 0 0)) 1 [.plain 0] := by
    simp [step,next,between,setPhase,sleeping,init]
  have h5 : (between k t (.unlocking (.plain 0) (.condWait 0 0 0 0)) 1 [.plain 0]).step (.next t) =
      between k t (.waking (.plain 0) (.condWait 0 0 0 0)) 0 [] := by
    simp [step,next,between,clear,setPhase,setWord]
  have h6 : (between k t (.waking (.plain 0) (.condWait 0 0 0 0)) 0 []).step (.wake t []) =
      between k t (.condWaiting 0 0 0 0) 0 [] := by
    simp [step,wake,between,futexWake,proceed,setPhase,sleeping]
  have h7 : (between k t (.condWaiting 0 0 0 0) 0 []).step (.next t) = sleeping n (k + 1) := by
    simp only [step,next,between,futexWait,setPhase,sleeping,init,take_succ ht,
      update_self,update_idem]
    simp only [ne_eq,reduceCtorEq,not_false_eq_true,update_of_ne,if_true,mk.injEq,
      update_eq_self_iff,and_self,and_true,true_and]
    funext u
    by_cases hu : u = t
    · subst hu
      simp [ht]
    have hlt : u.val < k + 1 ↔ u.val < k := by
      have hne : u.val ≠ k := fun h => hu (Fin.ext (h.trans ht.symm))
      omega
    simp only [update_of_ne hu,hlt]
  rw [sleeping_between ht]
  simp only [toSleep,runFrom_cons,runFrom_nil,Machine.Along,machine]
  rw [h1,h2,h3,h4,h5,h6,h7]
  refine ⟨rfl,trivial,?_,fun _ => ?_,?_,?_,?_,?_,trivial⟩
  · simp [Valid,between,SignalOk]
  · simp [between]
  · simp [Valid,between,SignalOk]
  · simp [Valid,between,SignalOk]
  · simp [Valid,between,WakeOk,Selects,sleeping]
  · simp [Valid,between,SignalOk]

end

def allToSleep (n k : Nat) : List (Event n) := ((finRange n).take k).flatMap toSleep

theorem run_allToSleep {k : Nat} (hk : k ≤ n) :
    (machine n).run (allToSleep n k) = sleeping n k ∧ (machine n).Along Valid (init n) (allToSleep n k) := by
  induction k with
  | zero => exact ⟨sleeping_zero.symm,trivial⟩
  | succ k ih =>
    obtain ⟨hrun,halong⟩ := ih (by omega)
    obtain ⟨hrun',halong'⟩ := run_toSleep (n := n) (k := k) (t := ⟨k,by omega⟩) rfl
    have hes : allToSleep n (k + 1) = allToSleep n k ++ toSleep ⟨k,by omega⟩ := by
      unfold allToSleep
      rw [take_succ (t := ⟨k,by omega⟩) rfl]
      simp
    rw [hes,run_append,along_append]
    refine ⟨by rw [hrun,hrun'],halong,?_⟩
    rw [show (machine n).runFrom (init n) (allToSleep n k) = sleeping n k from hrun]
    exact halong'

/-- All but the last thread sleep on condition 0, and the last one is about to wake them. -/
def toBroadcast (n : Nat) : List (Event (n + 1)) :=
  allToSleep (n + 1) n ++ [.condBroadcast (Fin.last n) 0,.next (Fin.last n)]

theorem run_toBroadcast (n : Nat) : (machine (n + 1)).Along Valid (init (n + 1)) (toBroadcast n) ∧
    ((machine (n + 1)).run (toBroadcast n)).phases (Fin.last n) = .condWaking 0 true 1 ∧
    (∀ u : Fin (n + 1), u.val < n →
      ((machine (n + 1)).run (toBroadcast n)).phases u = .condAsleep 0 0 0) ∧
    ((machine (n + 1)).run (toBroadcast n)).queues (.seq 0) = (finRange (n + 1)).take n := by
  obtain ⟨hrun,halong⟩ := run_allToSleep (n := n + 1) (k := n) (by omega)
  have hidle : (sleeping (n + 1) n).phases (Fin.last n) = .idle := by
    simp [sleeping]
  have hbegin : (sleeping (n + 1) n).step (.condBroadcast (Fin.last n) 0) =
      (sleeping (n + 1) n).setPhase (Fin.last n) (.signalling 0 true) := by
    simp [step,begin,hidle]
  have hstep : ((sleeping (n + 1) n).setPhase (Fin.last n) (.signalling 0 true)).step (.next (Fin.last n)) =
      ((sleeping (n + 1) n).setPhase (Fin.last n) (.signalling 0 true)).signal (Fin.last n) 0 true := by
    simp [step,next,setPhase]
  unfold toBroadcast
  rw [along_append,run_append,
    show (machine (n + 1)).runFrom (init (n + 1)) (allToSleep (n + 1) n) = sleeping (n + 1) n from hrun,hrun]
  simp only [Machine.Along,runFrom_cons,runFrom_nil,machine]
  rw [hbegin,hstep]
  refine ⟨⟨halong,trivial,?_,trivial⟩,?_,fun u hu => ?_,?_⟩
  · -- every ticket is 0, and so is the number of signals
    simp only [Valid,setPhase,update_self,SignalOk]
    intro u k _
    show 0 + 1 < k + 2^32
    omega
  · simp [signal,setPhase,setWord,sleeping,init]
  · have hne : u ≠ Fin.last n := fun h => by
      rw [h] at hu
      simp at hu
    simp [signal,setPhase,setWord,hne,sleeping,hu]
  · simp [signal,setPhase,setWord,sleeping]

/-- Among more sleepers than 0x7FFFFFFF a broadcast leaves one asleep. -/
theorem broadcast_leaves_one {n : Nat} (hn : 0x7FFFFFFF < n) :
    ∃ (es : List (Event (n + 1))) (t : Fin (n + 1)) (sel : List (Fin (n + 1))) (u : Fin (n + 1)),
      (machine (n + 1)).Along Valid (init (n + 1)) (es ++ [.wake t sel]) ∧
      ((machine (n + 1)).run es).phases t = .condWaking 0 true 1 ∧
      ((machine (n + 1)).run (es ++ [.wake t sel])).phases u = .condAsleep 0 0 0 := by
  obtain ⟨halong,hlast,hasleep,hqueue⟩ := run_toBroadcast n
  refine ⟨toBroadcast n,Fin.last n,(finRange (n + 1)).take 0x7FFFFFFF,⟨0x7FFFFFFF,by omega⟩,?_,hlast, ?_⟩
  · rw [along_append]
    refine ⟨halong,?_,trivial⟩
    show WakeOk ((machine (n + 1)).run (toBroadcast n)) _
      (((machine (n + 1)).run (toBroadcast n)).phases (Fin.last n))
    rw [hlast]
    show Selects _ _ 0x7FFFFFFF
    rw [hqueue]
    refine ⟨(nodup_finRange _).sublist (take_sublist _ _),fun u hu => ?_,?_⟩
    · exact (take_sublist_take_left (by omega)).subset hu
    simp only [length_take,length_finRange]
    omega
  rw [run_concat]
  have hout : (⟨0x7FFFFFFF,by omega⟩ : Fin (n + 1)) ∉ (finRange (n + 1)).take 0x7FFFFFFF := by
    rw [mem_take_iff_getElem]
    rintro ⟨i,hi,heq⟩
    have hv := congrArg Fin.val heq
    simp at hv
    omega
  have hne : (⟨0x7FFFFFFF,by omega⟩ : Fin (n + 1)) ≠ Fin.last n := fun h => by
    have hv := congrArg Fin.val h
    simp at hv
    omega
  show (((machine (n + 1)).run (toBroadcast n)).wake _ _).phases _ = _
  simp only [wake,hlast,condReturn,if_true,setPhase,futexWake]
  rw [update_of_ne hne,if_neg hout]
  exact hasleep _ hn

/-- A thread has read locked the lock 0 as often as `k` says, and is in its next call. -/
def reading (t : Fin n) (k : Nat) (p : Phase) (x : BitVec 32) (ms : List Mutex) : Pthreads n :=
  { init n with
    words := update (fun _ => 0) (.mutex (.inner 0)) x
    readers := update (fun _ => 0) 0 (BitVec.ofNat 32 k)
    phases := update (fun _ => .idle) t p
    held := update (fun _ => []) t ms
    reads := update (fun _ => []) t (replicate k 0) }

def toRead (t : Fin n) : List (Event n) :=
  [.rdlock t 0,.next t,.next t,.next t,.next t,.next t,.wake t []]

section
variable (t : Fin n) (k : Nat)

theorem run_toRead :
    (machine n).runFrom (reading t k .idle 0 []) (toRead t) = reading t (k + 1) .idle 0 [] ∧
      (machine n).Along Valid (reading t k .idle 0 []) (toRead t) := by
  have h1 : (reading t k .idle 0 []).step (.rdlock t 0) = reading t k (.locking (.rdlock 0) false) 0 [] := by
    simp [step,begin,reading,setPhase]
  have h2 : (reading t k (.locking (.rdlock 0) false) 0 []).step (.next t) =
      reading t k (.rdCheck 0) 1 [.inner 0] := by
    simp [step,next,reading,compareAndSwap,Caller.mutex,setPhase,setWord]
  have h3 : (reading t k (.rdCheck 0) 1 [.inner 0]).step (.next t) = reading t k (.rdLoad 0) 1 [.inner 0] := by
    simp [step,next,reading,setPhase,init]
  have h4 : (reading t k (.rdLoad 0) 1 [.inner 0]).step (.next t) =
      reading t k (.rdStore 0 (BitVec.ofNat 32 k)) 1 [.inner 0] := by
    simp [step,next,reading,setPhase]
  have h5 : (reading t k (.rdStore 0 (BitVec.ofNat 32 k)) 1 [.inner 0]).step (.next t) =
      reading t (k + 1) (.unlocking (.inner 0) .done) 1 [.inner 0] := by
    simp [step,next,reading,setPhase,storeReaders,leave,replicate_succ,BitVec.ofNat_add]
  have h6 : (reading t (k + 1) (.unlocking (.inner 0) .done) 1 [.inner 0]).step (.next t) =
      reading t (k + 1) (.waking (.inner 0) .done) 0 [] := by
    simp [step,next,reading,clear,setPhase,setWord]
  have h7 : (reading t (k + 1) (.waking (.inner 0) .done) 0 []).step (.wake t []) =
      reading t (k + 1) .idle 0 [] := by
    simp [step,wake,reading,futexWake,proceed,setPhase,init]
  simp only [toRead,runFrom_cons,runFrom_nil,Machine.Along,machine]
  rw [h1,h2,h3,h4,h5,h6,h7]
  refine ⟨rfl,trivial,?_,?_,?_,?_,?_,?_,trivial⟩
  · simp [Valid,reading,SignalOk]
  · simp [Valid,reading,SignalOk]
  · simp [Valid,reading,SignalOk]
  · simp [Valid,reading,SignalOk]
  · simp [Valid,reading,SignalOk]
  · simp [Valid,reading,WakeOk,Selects,init]

theorem run_reading : (machine n).run (replicate k (toRead t)).flatten = reading t k .idle 0 [] ∧
    (machine n).Along Valid (init n) (replicate k (toRead t)).flatten := by
  induction k with
  | zero => exact ⟨by simp [run,reading,machine,init],trivial⟩
  | succ k ih =>
    obtain ⟨hrun,halong⟩ := run_toRead t k
    rw [replicate_succ',flatten_append,flatten_singleton,run_append,along_append,ih.1]
    refine ⟨hrun,ih.2,?_⟩
    rw [show (machine n).runFrom (init n) (replicate k (toRead t)).flatten = reading t k .idle 0 [] from ih.1]
    exact halong

end

def toWrite (t : Fin n) : List (Event n) := [.wrlock t 0,.next t,.next t,.next t,.next t]

theorem run_toWrite (t u : Fin n) {k : Nat} (hk : BitVec.ofNat 32 k = 0) :
    0 ∈ ((machine n).runFrom (reading t k .idle 0 []) (toWrite u)).writes u ∧
    ((machine n).runFrom (reading t k .idle 0 []) (toWrite u)).reads t = replicate k 0 ∧
    (machine n).Along Valid (reading t k .idle 0 []) (toWrite u) := by
  simp [toWrite,runFrom_cons,machine,step,begin,next,reading,init,setPhase,setWord,compareAndSwap,
    Caller.mutex,hk,storeWriter,leave,Machine.Along,Valid,SignalOk]

/-- So with 2^31 + 1 threads, a thread can be asleep with a number from before the increment of a
broadcast that has returned. And a thread that has read locked a lock 2^32 times has it together with a writer. -/
theorem counts_overflow :
    (∃ (es : List (Event (2^31 + 1))) (t : Fin (2^31 + 1)) (sel : List (Fin (2^31 + 1))) (u : Fin (2^31 + 1)),
      (machine (2^31 + 1)).Along Valid (init (2^31 + 1)) (es ++ [.wake t sel]) ∧
      ((machine (2^31 + 1)).run es).phases t = .condWaking 0 true 1 ∧
      ((machine (2^31 + 1)).run (es ++ [.wake t sel])).phases u = .condAsleep 0 0 0) ∧
    ∃ es : List (Event 2), (machine 2).Along Valid (init 2) es ∧
      0 ∈ ((machine 2).run es).reads 0 ∧ 0 ∈ ((machine 2).run es).writes 1 := by
  refine ⟨broadcast_leaves_one (by omega),(replicate (2^32) (toRead 0)).flatten ++ toWrite 1,?_⟩
  obtain ⟨hrun,halong⟩ := run_reading (0 : Fin 2) (2^32)
  obtain ⟨hwrites,hreads,halong'⟩ := run_toWrite (0 : Fin 2) 1 (k := 2^32) rfl
  rw [along_append,run_append,hrun,hreads]
  refine ⟨⟨halong,?_⟩,mem_replicate.mpr ⟨by decide,rfl⟩,hwrites⟩
  rw [show (machine 2).runFrom (init 2) (replicate (2^32) (toRead 0)).flatten = _ from hrun]
  exact halong'

end Pthreads
end Rucux.Libc
