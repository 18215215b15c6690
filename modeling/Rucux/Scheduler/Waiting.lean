import Mathlib.Tactic.Common

/-!
What a thread shares with those who wake it: its state, its enrollment in an interruptible wait,
and its signals. The functions here are the sections of code under its `wait_lock`.
-/

namespace Rucux.Scheduler

inductive ThreadState where
  | ready
  | running
  | blocked
  | terminated
  deriving DecidableEq

def sigKill : Nat := 9
def sigTerm : Nat := 15
def maxSignals : Nat := 32

def sigBit (sig : Nat) : BitVec 32 := 1#32 <<< sig

def sigIgn : UInt64 := 1

/-- The fields of `thread` that waits and signals use; a thread with a `user_entry` is a user's. -/
structure Waiting where
  state : ThreadState
  interruptibleWait : Bool
  sigMask : BitVec 32
  sigPending : BitVec 32
  sigHandlers : Nat → UInt64
  userEntry : Bool

namespace Waiting

/-- The signals that a mask lets through: no mask holds back `SIGKILL`. -/
def unmasked (w : Waiting) : BitVec 32 := w.sigPending &&& ~~~(w.sigMask &&& ~~~sigBit sigKill)

def fatalSignalPending (w : Waiting) : Bool :=
  decide (w.unmasked &&& (sigBit sigKill ||| sigBit sigTerm) ≠ 0)

def beginInterruptibleWait (w : Waiting) : Option Waiting :=
  if w.fatalSignalPending then none
  else some { w with interruptibleWait := true, state := .blocked }

def endInterruptibleWait (w : Waiting) : Waiting := { w with interruptibleWait := false }

def enqueue (w : Waiting) : Waiting :=
  if w.state = .blocked then { w with state := .ready } else w

def unblocks (w : Waiting) : Bool :=
  w.state ≠ .terminated && !(w.interruptibleWait && w.state ≠ .blocked)

def unblock (w : Waiting) : Waiting := if w.unblocks then w.enqueue else w

def postCheck (w : Waiting) (sig : Int) : Int :=
  if sig < 0 ∨ sig ≥ maxSignals then -22
  else if w.state = .terminated then -3
  else if sig = 0 then 0
  else if (sig = sigKill ∨ sig = sigTerm) ∧ !w.userEntry then -1
  else if sig ≠ sigKill ∧ w.sigHandlers sig.toNat = sigIgn then 0
  else 1

def post (w : Waiting) (sig : Nat) : Waiting := { w with sigPending := w.sigPending ||| sigBit sig }

def postUnblocks (w : Waiting) : Bool :=
  w.fatalSignalPending && w.interruptibleWait && w.state = .blocked

def postSignal (w : Waiting) (sig : Int) : Int × Waiting :=
  let r := w.postCheck sig
  if r ≠ 1 then (r,w)
  else
    let w := w.post sig.toNat
    (0,if w.postUnblocks then w.enqueue else w)

variable {w w' : Waiting}

theorem enqueue_state : w.enqueue.state = if w.state = .blocked then .ready else w.state := by
  unfold enqueue
  split <;> simp_all

@[simp] theorem enqueue_interruptibleWait : w.enqueue.interruptibleWait = w.interruptibleWait := by
  unfold enqueue
  split <;> rfl

@[simp] theorem enqueue_fatal : w.enqueue.fatalSignalPending = w.fatalSignalPending := by
  unfold enqueue
  split <;> rfl

@[simp] theorem unblock_interruptibleWait : w.unblock.interruptibleWait = w.interruptibleWait := by
  unfold unblock
  split <;> simp

theorem unblock_state (ht : w.state ≠ .terminated) :
    w.unblock.state ≠ .blocked ∧ w.unblock.state ≠ .terminated := by
  unfold unblock unblocks
  cases hs : w.state <;> simp_all [enqueue]

theorem fatal_mono (hm : w'.sigMask = w.sigMask) (hp : w.sigPending &&& w'.sigPending = w.sigPending)
    (h : w.fatalSignalPending = true) : w'.fatalSignalPending = true := by
  have hne := of_decide_eq_true h
  refine decide_eq_true fun h0 => hne ?_
  have hsplit : w.unmasked &&& (sigBit sigKill ||| sigBit sigTerm) =
      w.sigPending &&& (w'.unmasked &&& (sigBit sigKill ||| sigBit sigTerm)) := by
    simp only [unmasked,hm,← BitVec.and_assoc]
    rw [hp]
  rw [hsplit,h0]
  exact BitVec.and_zero

theorem beginInterruptibleWait_eq (h : w.beginInterruptibleWait = some w') :
    w.fatalSignalPending = false ∧ w' = { w with interruptibleWait := true, state := .blocked } := by
  unfold beginInterruptibleWait at h
  split at h
  · cases h
  rename_i hf
  exact ⟨by simpa using hf,(Option.some.inj h).symm⟩

theorem postSignal_spec (w : Waiting) (sig : Int) :
    (w.postSignal sig).2.interruptibleWait = w.interruptibleWait ∧
    (w.fatalSignalPending = true → (w.postSignal sig).2.fatalSignalPending = true) ∧
    ((w.postSignal sig).2.state = .terminated → w.state = .terminated) ∧
    ((w.postSignal sig).2.state = .blocked → w.state = .blocked) ∧
    ((w.postSignal sig).2.state ≠ .blocked →
      w.state ≠ .blocked ∨ (w.postSignal sig).2.fatalSignalPending = true) := by
  have hfatal : w.fatalSignalPending = true → (w.post sig.toNat).fatalSignalPending = true := by
    refine fatal_mono rfl ?_
    simp only [post]
    ext i hi
    simpa using fun h => Or.inl h
  unfold postSignal
  dsimp only
  split
  · exact ⟨rfl,id,id,id,.inl⟩
  split
  · rename_i hu
    have hun : (w.post sig.toNat).fatalSignalPending = true ∧ w.state = .blocked := by
      simp only [postUnblocks,Bool.and_eq_true,decide_eq_true_eq] at hu
      exact ⟨hu.1.1,hu.2⟩
    have hstate : (w.post sig.toNat).enqueue.state = .ready := by
      rw [enqueue_state,if_pos (show (w.post sig.toNat).state = _ from hun.2)]
    refine ⟨by simp [post],by simpa using hfatal,?_,?_,fun _ => .inr (by simpa using hun.1)⟩
    all_goals
      rw [hstate]
      exact nofun
  · exact ⟨rfl,hfatal,id,id,.inl⟩

end Waiting
end Rucux.Scheduler
