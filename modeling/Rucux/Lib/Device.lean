import Mathlib.Data.List.Infix

/-! Programs on a device of sectors. A program reads and writes sectors and sees the answers; an execution takes
what happens to each command from a list of fates, where a write that fails may have been stored or not. `Meets` is
what a program guarantees whatever happens: which commands it gives, and what holds of the disk at each moment and
at its end. -/

namespace Rucux.Lib
open Function List

inductive Io (σ α : Type) where
  | done (a : α)
  | read (lba : Nat) (next : Option σ → Io σ α)
  | write (lba : Nat) (s : σ) (next : Bool → Io σ α)
  | flush (next : Bool → Io σ α)

/-- What becomes of a command; without one it works. -/
inductive Fate where
  | good
  | lost
  | stored
  deriving DecidableEq

/-- A command as it was carried out. -/
inductive Access (σ : Type) where
  | read (lba : Nat) (ok : Bool)
  | write (lba : Nat) (s : σ) (ok stored : Bool)
  | flush (ok : Bool)

namespace Access
variable {σ : Type}

def apply (d : Nat → σ) : Access σ → Nat → σ
  | .write lba s _ true => update d lba s
  | _ => d

def replay (d : Nat → σ) (trace : List (Access σ)) : Nat → σ := trace.foldl apply d

def failedRead : Access σ → Bool
  | .read _ ok => !ok
  | _ => false

def failedWrite : Access σ → Bool
  | .write _ _ ok _ => !ok
  | .flush ok => !ok
  | .read _ _ => false

end Access

namespace Io
variable {σ α β : Type}

def bind : Io σ α → (α → Io σ β) → Io σ β
  | .done a, f => f a
  | .read lba k, f => .read lba fun o => (k o).bind f
  | .write lba s k, f => .write lba s fun b => (k b).bind f
  | .flush k, f => .flush fun b => (k b).bind f

instance : Monad (Io σ) where
  pure := .done
  bind := bind

def readSector (lba : Nat) : Io σ (Option σ) := .read lba .done

def writeSector (lba : Nat) (s : σ) : Io σ Bool := .write lba s .done

def flushCache : Io σ Bool := .flush .done

structure Outcome (σ α : Type) where
  value : α
  disk : Nat → σ
  trace : List (Access σ)

def Outcome.after (r : Outcome σ α) (x : Access σ) : Outcome σ α := { r with trace := x :: r.trace }

def exec : Io σ α → (Nat → σ) → List Fate → Outcome σ α
  | .done a, d, _ => ⟨a,d,[]⟩
  | .read lba k, d, fates =>
    match fates.headD .good with
    | .good => ((k (some (d lba))).exec d fates.tail).after (.read lba true)
    | _ => ((k none).exec d fates.tail).after (.read lba false)
  | .write lba s k, d, fates =>
    match fates.headD .good with
    | .good => ((k true).exec (update d lba s) fates.tail).after (.write lba s true true)
    | .lost => ((k false).exec d fates.tail).after (.write lba s false false)
    | .stored => ((k false).exec (update d lba s) fates.tail).after (.write lba s false true)
  | .flush k, d, fates =>
    match fates.headD .good with
    | .good => ((k true).exec d fates.tail).after (.flush true)
    | _ => ((k false).exec d fates.tail).after (.flush false)

end Io

/-- What may happen to the commands, which commands are allowed (a write on the disk as it is then),
and what must hold of the disk before and after each of them. -/
structure Terms (σ : Type) where
  readFails : Bool
  writeFails : Bool
  mayRead : Nat → Prop
  mayWrite : (Nat → σ) → Nat → σ → Prop
  safe : (Nat → σ) → Prop

def Terms.Allows {σ : Type} (E : Terms σ) (d : Nat → σ) : Access σ → Prop
  | .read lba _ => E.mayRead lba
  | .write lba s _ _ => E.mayWrite d lba s
  | .flush _ => True

namespace Io
variable {σ α β : Type} {E : Terms σ} {d : Nat → σ} {Q : α → (Nat → σ) → Prop}
  {P : β → (Nat → σ) → Prop} {p : Io σ α} {f : α → Io σ β} {lba : Nat}

def Meets (E : Terms σ) : Io σ α → (Nat → σ) → (α → (Nat → σ) → Prop) → Prop
  | .done a, d, Q => E.safe d ∧ Q a d
  | .read lba k, d, Q => E.mayRead lba ∧ (E.readFails = true → Meets E (k none) d Q) ∧
      Meets E (k (some (d lba))) d Q
  | .write lba s k, d, Q => E.mayWrite d lba s ∧ E.safe d ∧
      Meets E (k true) (update d lba s) Q ∧
      (E.writeFails = true → Meets E (k false) d Q ∧ Meets E (k false) (update d lba s) Q)
  | .flush k, d, Q => Meets E (k true) d Q ∧ (E.writeFails = true → Meets E (k false) d Q)

theorem Meets.safe (h : p.Meets E d Q) : E.safe d := by
  induction p generalizing d with
  | done a => exact h.1
  | read lba k ih => exact ih _ h.2.2
  | write lba s k _ => exact h.2.1
  | flush k ih => exact ih _ h.1

theorem Meets.mono {Q' : α → (Nat → σ) → Prop} (h : p.Meets E d Q) (hq : ∀ a d', Q a d' → Q' a d') :
    p.Meets E d Q' := by
  induction p generalizing d with
  | done a => exact ⟨h.1,hq a d h.2⟩
  | read lba k ih => exact ⟨h.1,fun hf => ih _ (h.2.1 hf),ih _ h.2.2⟩
  | write lba s k ih =>
    exact ⟨h.1,h.2.1,ih _ h.2.2.1,fun hf => ⟨ih _ (h.2.2.2 hf).1,ih _ (h.2.2.2 hf).2⟩⟩
  | flush k ih => exact ⟨ih _ h.1,fun hf => ih _ (h.2 hf)⟩

theorem meets_pure {a : α} (hs : E.safe d) (hq : Q a d) : (pure a : Io σ α).Meets E d Q := ⟨hs,hq⟩

theorem Meets.bind (h : p.Meets E d Q) (hf : ∀ a d', Q a d' → (f a).Meets E d' P) :
    (p >>= f).Meets E d P := by
  show (Io.bind p f).Meets E d P
  induction p generalizing d with
  | done a => exact hf a d h.2
  | read lba k ih => exact ⟨h.1,fun hfail => ih _ (h.2.1 hfail),ih _ h.2.2⟩
  | write lba s k ih =>
    exact ⟨h.1,h.2.1,ih _ h.2.2.1,fun hfail => ⟨ih _ (h.2.2.2 hfail).1,ih _ (h.2.2.2 hfail).2⟩⟩
  | flush k ih => exact ⟨ih _ h.1,fun hfail => ih _ (h.2 hfail)⟩

theorem meets_ite {c : Prop} [Decidable c] {q : Io σ α} (hp : c → p.Meets E d Q)
    (hq : ¬c → q.Meets E d Q) : (if c then p else q).Meets E d Q := by
  by_cases hc : c
  · rw [if_pos hc]; exact hp hc
  · rw [if_neg hc]; exact hq hc

theorem meets_read {g : Option σ → Io σ β} (hr : E.mayRead lba)
    (hnone : E.readFails = true → (g none).Meets E d P) (hsome : (g (some (d lba))).Meets E d P) :
    (readSector lba >>= g).Meets E d P := ⟨hr,hnone,hsome⟩

theorem meets_write {s : σ} {g : Bool → Io σ β} (hw : E.mayWrite d lba s) (hs : E.safe d)
    (htrue : (g true).Meets E (update d lba s) P)
    (hfalse : E.writeFails = true → (g false).Meets E d P ∧ (g false).Meets E (update d lba s) P) :
    (writeSector lba s >>= g).Meets E d P := ⟨hw,hs,htrue,hfalse⟩

theorem meets_flush {g : Bool → Io σ β} (htrue : (g true).Meets E d P)
    (hfalse : E.writeFails = true → (g false).Meets E d P) :
    (flushCache >>= g).Meets E d P := ⟨htrue,hfalse⟩

def Expected (E : Terms σ) (trace : List (Access σ)) : Prop :=
  ∀ x ∈ trace, (E.readFails = false → x.failedRead = false) ∧
    (E.writeFails = false → x.failedWrite = false)

/-- The execution keeps the terms and ends in `Q`. -/
structure Kept (E : Terms σ) (d : Nat → σ) (Q : α → (Nat → σ) → Prop) (r : Outcome σ α) : Prop where
  allowed : ∀ before x rest, r.trace = before ++ x :: rest → E.Allows (Access.replay d before) x
  cut : ∀ trace, trace <+: r.trace → E.safe (Access.replay d trace)
  ends : Q r.value r.disk

theorem Kept.after {r : Outcome σ α} {x : Access σ} (hx : E.Allows d x) (hs : E.safe d)
    (h : Kept E (Access.apply d x) Q r) : Kept E d Q (r.after x) where
  allowed := by
    intro before y rest he
    cases before with
    | nil => obtain ⟨rfl,_⟩ := List.cons.inj he; exact hx
    | cons z before =>
      obtain ⟨rfl,htail⟩ := List.cons.inj he
      exact h.allowed before y rest htail
  cut := by
    intro trace htrace
    cases trace with
    | nil => exact hs
    | cons y trace =>
      obtain ⟨rfl,hrest⟩ := cons_prefix_cons.mp htrace
      exact h.cut trace hrest
  ends := h.ends

/-- What a program meets, each of its executions shows: the commands are allowed ones, the disk is
safe wherever the execution may be cut off, and the end is as promised. -/
theorem Meets.exec (h : p.Meets E d Q) (fates : List Fate)
    (hexp : Expected E (p.exec d fates).trace) : Kept E d Q (p.exec d fates) := by
  induction p generalizing d fates with
  | done a =>
    refine ⟨by simp [Io.exec],fun trace htrace => ?_,h.2⟩
    obtain rfl := prefix_nil.mp htrace
    exact h.1
  | read lba k ih =>
    simp only [Io.exec] at hexp ⊢
    split at hexp
    · exact .after h.1 h.safe (ih _ h.2.2 _ (forall_mem_cons.mp hexp).2)
    have hfail : E.readFails = true := by
      simpa [Access.failedRead] using ((forall_mem_cons.mp hexp).1).1
    exact .after h.1 h.safe (ih _ (h.2.1 hfail) _ (forall_mem_cons.mp hexp).2)
  | write lba s k ih =>
    simp only [Io.exec] at hexp ⊢
    have hfail : ∀ {b : Bool} {xs : List (Access σ)},
        Expected E (.write lba s false b :: xs) → E.writeFails = true := fun hx => by
      simpa [Access.failedWrite] using ((forall_mem_cons.mp hx).1).2
    split at hexp
    · exact .after h.1 h.safe (ih _ h.2.2.1 _ (forall_mem_cons.mp hexp).2)
    · exact .after h.1 h.safe (ih _ (h.2.2.2 (hfail hexp)).1 _ (forall_mem_cons.mp hexp).2)
    · exact .after h.1 h.safe (ih _ (h.2.2.2 (hfail hexp)).2 _ (forall_mem_cons.mp hexp).2)
  | flush k ih =>
    simp only [Io.exec] at hexp ⊢
    split at hexp
    · exact .after trivial h.safe (ih _ h.1 _ (forall_mem_cons.mp hexp).2)
    have hfail : E.writeFails = true := by
      simpa [Access.failedWrite] using ((forall_mem_cons.mp hexp).1).2
    exact .after trivial h.safe (ih _ (h.2 hfail) _ (forall_mem_cons.mp hexp).2)

theorem expected_nil (p : Io σ α) (d : Nat → σ) : Expected E (p.exec d []).trace := by
  have hgood : ∀ x ∈ (p.exec d []).trace, x.failedRead = false ∧ x.failedWrite = false := by
    induction p generalizing d with
    | done a => simp [Io.exec]
    | read lba k ih => exact forall_mem_cons.mpr ⟨⟨rfl,rfl⟩,ih _ _⟩
    | write lba s k ih => exact forall_mem_cons.mpr ⟨⟨rfl,rfl⟩,ih _ _⟩
    | flush k ih => exact forall_mem_cons.mpr ⟨⟨rfl,rfl⟩,ih _ _⟩
  exact fun x hx => ⟨fun _ => (hgood x hx).1,fun _ => (hgood x hx).2⟩

theorem exec_disk (p : Io σ α) (d : Nat → σ) (fates : List Fate) :
    (p.exec d fates).disk = Access.replay d (p.exec d fates).trace := by
  induction p generalizing d fates with
  | done a => rfl
  | read lba k ih => simp only [Io.exec]; split <;> exact ih _ _ _
  | write lba s k ih => simp only [Io.exec]; split <;> exact ih _ _ _
  | flush k ih => simp only [Io.exec]; split <;> exact ih _ _ _

theorem Kept.safe_end {fates : List Fate} (h : Kept E d Q (p.exec d fates)) :
    E.safe (p.exec d fates).disk := by
  rw [exec_disk]
  exact h.cut _ prefix_rfl

theorem Kept.allows {r : Outcome σ α} (h : Kept E d Q r) {x : Access σ} (hx : x ∈ r.trace) :
    ∃ d', E.Allows d' x := by
  obtain ⟨before,rest,he⟩ := append_of_mem hx
  exact ⟨_,h.allowed before x rest he⟩

/-- Where no write is allowed once the disk is closed, a cut that leaves it closed leaves it as the
whole execution does. -/
theorem Kept.closed {fates : List Fate} (h : Kept E d Q (p.exec d fates))
    (closed : (Nat → σ) → Prop) (hclosed : ∀ d' lba s, E.mayWrite d' lba s → ¬closed d')
    {trace : List (Access σ)} (htrace : trace <+: (p.exec d fates).trace)
    (hc : closed (Access.replay d trace)) : Access.replay d trace = (p.exec d fates).disk := by
  obtain ⟨rest,he⟩ := htrace
  rw [exec_disk,← he]
  have hall := h.allowed
  rw [← he] at hall
  clear he
  induction rest generalizing trace with
  | nil => rw [append_nil]
  | cons x rest ih =>
    have hx := hall trace x rest rfl
    have hsame : Access.replay d (trace ++ [x]) = Access.replay d trace := by
      rw [Access.replay,foldl_append]
      cases x with
      | read lba ok => rfl
      | write lba s ok stored => exact absurd hc (hclosed _ _ _ hx)
      | flush ok => rfl
    have happ : trace ++ x :: rest = trace ++ [x] ++ rest := by simp
    rw [happ,← hsame]
    refine ih (by rw [hsame]; exact hc) fun before y rest' hy => hall before y rest' ?_
    rw [happ]
    exact hy

end Io
end Rucux.Lib
