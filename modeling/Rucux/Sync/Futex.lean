import Mathlib.Data.List.Induction
import Mathlib.Data.List.Nodup
import Rucux.Lib.Machine
import Rucux.Scheduler.Waiting

/-! `futex_wait` and `futex_wake`. A waiter sits on the stack of its thread, so that a thread stands for the address
of its waiter; a bucket is the chain from its head. A call is cut where its bucket is unlocked and where others may
come in between: `futex_wait` before `begin_interruptible_wait`, before it unlinks itself, and before it looks for a
signal again. A blocked thread stays until somebody makes it ready. -/

namespace Rucux.Sync
open Lib Scheduler Function

def futexHashSize : Nat := 256

def futexHash (addrSpace addr : UInt64) : Nat :=
  let h : UInt64 := 14695981039346656037
  let h := (h ^^^ addrSpace)*1099511628211
  let h := (h ^^^ addr)*1099511628211
  h.toNat &&& (futexHashSize - 1)

structure Waiter (n : Nat) where
  thread : Fin n
  addr : UInt64
  addrSpace : UInt64
  deriving DecidableEq

def Waiter.waitsFor {n : Nat} (w : Waiter n) (addrSpace addr : UInt64) : Bool :=
  w.addr = addr && w.addrSpace = addrSpace

/-- Where a thread is; `idle` has what its last call returned. -/
inductive FutexCall where
  | idle (result : Int)
  | enrolling (addr : UInt64)
  | asleep (addr : UInt64)
  | leaving
  deriving DecidableEq

def FutexCall.isIdle : FutexCall → Bool
  | .idle _ => true
  | _ => false

/-- The words of the address spaces, where they can be read; the buckets with the threads that have
them locked; the threads. That a wake has removed the waiter of a thread, and not itself, nobody
keeps: `woken` says so. -/
structure Futexes (n : Nat) where
  words : UInt64 → UInt64 → Option (BitVec 32)
  locks : Nat → Option (Fin n)
  buckets : Nat → List (Waiter n)
  threads : Fin n → Waiting
  calls : Fin n → FutexCall
  woken : Fin n → Bool

namespace Futexes
variable {n : Nat}

def setCall (s : Futexes n) (t : Fin n) (c : FutexCall) : Futexes n :=
  { s with calls := update s.calls t c }

def setLock (s : Futexes n) (i : Nat) (holder : Option (Fin n)) : Futexes n :=
  { s with locks := update s.locks i holder }

def setBucket (s : Futexes n) (i : Nat) (chain : List (Waiter n)) : Futexes n :=
  { s with buckets := update s.buckets i chain }

def setThread (s : Futexes n) (t : Fin n) (w : Waiting) : Futexes n :=
  { s with threads := update s.threads t w }

/-- Up to the comparison: the lock is kept if there is to be a wait. -/
def futexWait (space : Fin n → UInt64) (s : Futexes n) (t : Fin n) (addr : UInt64) (val : BitVec 32) :
    Futexes n :=
  match s.words (space t) addr with
  | none => s.setCall t (.idle (-14))
  | some observed =>
    if observed ≠ val then s.setCall t (.idle (-1))
    else (s.setLock (futexHash (space t) addr) (some t)).setCall t (.enrolling addr)

def enroll (space : Fin n → UInt64) (s : Futexes n) (t : Fin n) (addr : UInt64) : Futexes n :=
  let i := futexHash (space t) addr
  match (s.threads t).beginInterruptibleWait with
  | none => (s.setLock i none).setCall t (.idle (-4))
  | some w =>
    let s := (s.setThread t w).setBucket i (⟨t,addr,space t⟩ :: s.buckets i)
    { (s.setLock i none).setCall t (.asleep addr) with woken := update s.woken t false }

def unlink (t : Fin n) : List (Waiter n) → List (Waiter n)
  | [] => []
  | w :: ws => if w.thread = t then ws else w :: unlink t ws

def resume (space : Fin n → UInt64) (s : Futexes n) (t : Fin n) (addr : UInt64) : Futexes n :=
  let i := futexHash (space t) addr
  let s := s.setBucket i (unlink t (s.buckets i))
  (s.setThread t (s.threads t).endInterruptibleWait).setCall t .leaving

def leave (s : Futexes n) (t : Fin n) : Futexes n :=
  s.setCall t (.idle (if (s.threads t).fatalSignalPending then -4 else 0))

/-- The loop of `futex_wake`: what is left of the chain, and whom it takes out. -/
def wakeLoop (addrSpace addr : UInt64) (count : Nat) : Nat → List (Waiter n) →
    List (Waiter n) × List (Waiter n)
  | _, [] => ([],[])
  | woken, w :: ws =>
    if woken < count then
      if w.waitsFor addrSpace addr then
        let r := wakeLoop addrSpace addr count (woken+1) ws
        (r.1,w :: r.2)
      else
        let r := wakeLoop addrSpace addr count woken ws
        (w :: r.1,r.2)
    else (w :: ws,[])

def unblock (s : Futexes n) (t : Fin n) : Futexes n :=
  { s.setThread t (s.threads t).unblock with woken := update s.woken t true }

def futexWake (space : Fin n → UInt64) (s : Futexes n) (t : Fin n) (addr : UInt64) (count : BitVec 32) :
    Futexes n :=
  let i := futexHash (space t) addr
  let r := wakeLoop (space t) addr count.toNat 0 (s.buckets i)
  ((r.2.foldl (fun s w => s.unblock w.thread) s).setBucket i r.1).setCall t (.idle r.2.length)

inductive Event (n : Nat) where
  | wait (t : Fin n) (addr : UInt64) (val : BitVec 32)
  | wake (t : Fin n) (addr : UInt64) (count : BitVec 32)
  | next (t : Fin n)
  | write (addrSpace addr : UInt64) (word : Option (BitVec 32))
  | post (t : Fin n) (sig : Int)
  | mask (t : Fin n) (sigMask : BitVec 32)
  | dispatch (t : Fin n)
  | preempt (t : Fin n)
  | terminate (t : Fin n)

def free (s : Futexes n) (t : Fin n) : Bool :=
  (s.calls t).isIdle && (s.threads t).state = .running

def next (space : Fin n → UInt64) (s : Futexes n) (t : Fin n) : Futexes n :=
  match s.calls t with
  | .idle _ => s
  | .enrolling addr => s.enroll space t addr
  | .asleep addr =>
    if (s.threads t).state = .running && (s.locks (futexHash (space t) addr)).isNone then
      s.resume space t addr
    else s
  | .leaving => s.leave t

def step (space : Fin n → UInt64) (s : Futexes n) : Event n → Futexes n
  | .wait t addr val =>
    if s.free t && (s.locks (futexHash (space t) addr)).isNone then s.futexWait space t addr val else s
  | .wake t addr count =>
    if s.free t && (s.locks (futexHash (space t) addr)).isNone then s.futexWake space t addr count else s
  | .next t => s.next space t
  | .write addrSpace addr word =>
    { s with
      words := update s.words addrSpace (update (s.words addrSpace) addr word) }
  | .post t sig => s.setThread t ((s.threads t).postSignal sig).2
  | .mask t sigMask =>
    if s.free t then s.setThread t { s.threads t with sigMask := sigMask } else s
  | .dispatch t =>
    if (s.threads t).state = .ready then s.setThread t { s.threads t with state := .running } else s
  | .preempt t =>
    if (s.threads t).state = .running then s.setThread t { s.threads t with state := .ready } else s
  | .terminate t =>
    if s.free t then s.setThread t { s.threads t with state := .terminated } else s

def init (words : UInt64 → UInt64 → Option (BitVec 32)) (sigHandlers : Fin n → Nat → UInt64) :
    Futexes n where
  words := words
  locks := fun _ => none
  buckets := fun _ => []
  threads := fun t => ⟨.ready,false,0,0,sigHandlers t,true⟩
  calls := fun _ => .idle 0
  woken := fun _ => false

def machine (space : Fin n → UInt64) (words : UInt64 → UInt64 → Option (BitVec 32))
    (sigHandlers : Fin n → Nat → UInt64) : Machine (Futexes n) (Event n) where
  initial := init words sigHandlers
  step := step space

end Futexes
end Rucux.Sync
