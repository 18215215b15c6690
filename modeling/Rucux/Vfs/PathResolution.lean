import Rucux.Lib.Machine
import Mathlib.Algebra.Order.Ring.Nat
import Rucux.Lib.References

/-!
Descriptor tables, and the paths that files are opened by.
-/

namespace Rucux.Vfs

inductive FileType where
  | regular
  | directory
  | charDevice
  | blockDevice
  | socket
  | epoll
  deriving DecidableEq

/-- What is fixed about a node: whether it has a `destroy`, and which operations. -/
structure NodeKind where
  managed : Bool
  type : FileType
  lookup : Bool
  opens : Bool
  closes : Bool
  deriving DecidableEq

structure Entry where
  node : Nat
  offset : Nat
  flags : BitVec 32
  deriving DecidableEq

def Entry.empty : Entry := ⟨0,0,0⟩

def initialFds : Nat := 8

def maxFds : Nat := 32

def growCount (n : Nat) : Nat → Nat → Nat
  | 0, count => count
  | fuel+1, count => if count < n then growCount n fuel (2*count) else count

/-- `memory` says whether `new` works. The size of the table is `fd_count`. -/
def ensureFdCapacity (table : Option (List Entry)) (n : Nat) (memory : Bool) :
    Bool × Option (List Entry) :=
  let n := if n > maxFds then maxFds else n
  let entries := table.getD []
  if table.isSome && entries.length ≥ n then (true,table)
  else
    let count := growCount n n (if entries.length ≠ 0 then entries.length else initialFds)
    let count := if count > maxFds then maxFds else count
    if !memory then (false,table)
    else (true,some (entries ++ List.replicate (count - entries.length) Entry.empty))

/-- `alloc_fd` up to its reference. It needs memory once at most, since the table it makes from nothing
has room. -/
def allocFd (table : Option (List Entry)) (node : Nat) (flags : BitVec 32) (memory : Bool) :
    Int × Option (List Entry) :=
  let r := if table.isNone then ensureFdCapacity table initialFds memory else (true,table)
  if !r.1 then (-12,r.2)
  else
    match r.2 with
    | none => (-12,none)
    | some entries =>
      match entries.findIdx? fun d => d.node = 0 with
      | some i => (i,some (entries.set i ⟨node,0,flags⟩))
      | none =>
        if entries.length < maxFds then
          let r := ensureFdCapacity (some entries) (entries.length + 1) memory
          let grown := r.2.getD []
          if !r.1 then (-12,r.2)
          else if entries.length < grown.length then
            (entries.length,some (grown.set entries.length ⟨node,0,flags⟩))
          else (if grown.length ≥ maxFds then -24 else -12,r.2)
        else (if entries.length ≥ maxFds then -24 else -12,r.2)

def validateComponent (name : List Char) : Int :=
  if name.length = 0 then -22
  else if name.length > 127 then -36
  else if name = ['.'] ∨ name = ['.','.'] then -95
  else 0

def validatePath : Nat → List Char → Int
  | 0, _ => 0
  | _+1, [] => 0
  | fuel+1, c :: rest =>
    if c = '/' then validatePath fuel rest
    else
      let error := validateComponent (c :: rest.takeWhile (· ≠ '/'))
      if error < 0 then error else validatePath fuel (rest.dropWhile (· ≠ '/'))

def resolveCheck (path : Option (List Char)) (root : Nat) : Int :=
  match path with
  | none => -14
  | some [] => -2
  | some (c :: rest) =>
    if c ≠ '/' then -22
    else if (c :: rest).length ≥ 1024 then -36
    else
      let error := validatePath rest.length rest
      if error < 0 then error else if root = 0 then -2 else 0

/-- The main loop of `resolve_path` up to its next `lookup`: the component and what follows it, nothing
at the end of the path, or an error. -/
def nextComponent (directory : Bool) : List Char → Except Int (Option (List Char × List Char))
  | [] => .ok none
  | c :: rest =>
    if c = '/' then if directory then nextComponent directory rest else .error (-20)
    else .ok (some (c :: rest.takeWhile (· ≠ '/'),rest.dropWhile (· ≠ '/')))

def lookupCheck (directory : NodeKind) (name : List Char) : Int :=
  if '/' ∈ name.take 128 then -22
  else if name.length > 127 then -36
  else if validateComponent name < 0 then validateComponent name
  else if directory.type ≠ .directory then -20
  else if !directory.lookup then -95
  else 0

def Files.getFd (table : Option (List Entry)) (fd : Int) : Option Entry :=
  if fd < 0 then none else table.bind (·[fd.toNat]?)

/-! `resolve_path` from its first check to its return, with callbacks that file systems supply. -/

open Lib List Move

/-- What is fixed about the nodes, the root, and the `lookup` callbacks with the state they share. A
callback returns its error or 0, and the child. -/
structure Namespace (σ : Type) where
  kinds : Nat → NodeKind
  root : Nat
  lookup : σ → Nat → List Char → Int × Nat × σ

/-- The state of the file systems, the callbacks that were invoked, and the counters. -/
structure Walk (σ : Type) where
  fs : σ
  calls : List (Nat × List Char)
  cells : Nat → Cell

namespace Namespace
variable {σ : Type}

def isDirectory (ns : Namespace σ) (node : Nat) : Bool := decide ((ns.kinds node).type = .directory)

def retain (ns : Namespace σ) (w : Walk σ) (node : Nat) : Walk σ :=
  if (ns.kinds node).managed then { w with cells := apply w.cells (.retain node) } else w

def release (ns : Namespace σ) (w : Walk σ) (node : Nat) : Walk σ :=
  if (ns.kinds node).managed then { w with cells := apply w.cells (.release node) } else w

/-- `lookup`. A child that a callback returns with 0 comes with a reference. -/
def lookupChild (ns : Namespace σ) (w : Walk σ) (directory : Nat) (name : List Char) : Except Int Nat × Walk σ :=
  let check := lookupCheck (ns.kinds directory) name
  if check < 0 then (.error check,w)
  else
    let r := ns.lookup w.fs directory name
    let w := ⟨r.2.2,w.calls ++ [(directory,name)],w.cells⟩
    if r.1 < 0 then (.error r.1,w)
    else if r.1 ≠ 0 ∨ r.2.1 = 0 then (.error (-5),w)
    else (.ok r.2.1,ns.retain w r.2.1)

/-- The main loop of `resolve_path`. An early return drops `current`; otherwise it is detached. -/
def walk (ns : Namespace σ) : Nat → Nat → List Char → Walk σ → Except Int Nat × Walk σ
  | 0, current, _, w => (.ok current,w)
  | fuel+1, current, path, w =>
    match nextComponent (ns.isDirectory current) path with
    | .error error => (.error error,ns.release w current)
    | .ok none => (.ok current,w)
    | .ok (some (name,rest)) =>
      match ns.lookupChild w current name with
      | (.error error,w) => (.error error,ns.release w current)
      | (.ok child,w) => ns.walk fuel child rest (ns.release w current)

def resolvePath (ns : Namespace σ) (path : Option (List Char)) (w : Walk σ) : Except Int Nat × Walk σ :=
  let check := resolveCheck path ns.root
  if check < 0 then (.error check,w)
  else
    let path := path.getD []
    ns.walk (path.length + 1) ns.root path (ns.retain w ns.root)

end Namespace

def components (path : List Char) : List (List Char) := (path.splitOn '/').filter (· ≠ [])

structure ValidPath (path : List Char) : Prop where
  absolute : path.head? = some '/'
  length : path.length ≤ 1023
  names : ∀ name ∈ components path, 1 ≤ name.length ∧ name.length ≤ 127 ∧ name ≠ ['.'] ∧ name ≠ ['.','.']

theorem components_slash (path : List Char) : components ('/' :: path) = components path := by
  simp [components,splitOn_cons_eq_if_modifyHead]

theorem slash_notMem_takeWhile (path : List Char) : '/' ∉ path.takeWhile (· ≠ '/') := fun h => by
  have hne := all_eq_true.mp all_takeWhile '/' h
  simp at hne

theorem dropWhile_cases (path : List Char) :
    path.dropWhile (· ≠ '/') = [] ∨ ∃ rest, path.dropWhile (· ≠ '/') = '/' :: rest := by
  induction path with
  | nil => exact .inl rfl
  | cons c path ih =>
    by_cases hc : c = '/'
    · exact .inr ⟨path,by simp [hc]⟩
    · simpa [hc] using ih

theorem components_name {c : Char} (hc : c ≠ '/') (path : List Char) :
    components (c :: path) = (c :: path.takeWhile (· ≠ '/')) :: components (path.dropWhile (· ≠ '/')) := by
  have hsplit : c :: path = (c :: path.takeWhile (· ≠ '/')) ++ path.dropWhile (· ≠ '/') := by
    rw [cons_append,takeWhile_append_dropWhile]
  have hname : '/' ∉ c :: path.takeWhile (· ≠ '/') := by
    simp only [mem_cons,not_or]
    exact ⟨hc.symm,slash_notMem_takeWhile path⟩
  rcases dropWhile_cases path with hnil | ⟨rest,hrest⟩
  · rw [hnil,append_nil] at hsplit
    rw [hnil,hsplit,components,splitOn_eq_singleton hname]
    rfl
  rw [hrest] at hsplit ⊢
  rw [hsplit,components,splitOn_append_cons_self_of_not_mem hname,components_slash]
  rfl

theorem getLast?_name {c : Char} (hc : c ≠ '/') (path : List Char) :
    (c :: path).getLast? = some '/' ↔ (path.dropWhile (· ≠ '/')).getLast? = some '/' := by
  have hsplit : c :: path = (c :: path.takeWhile (· ≠ '/')) ++ path.dropWhile (· ≠ '/') := by
    rw [cons_append,takeWhile_append_dropWhile]
  rcases dropWhile_cases path with hnil | ⟨rest,hrest⟩
  · rw [hnil,append_nil] at hsplit
    rw [hnil,hsplit]
    refine ⟨fun h => ?_,nofun⟩
    rcases mem_cons.mp (mem_of_getLast? h) with h | h
    · exact absurd h.symm hc
    · exact absurd h (slash_notMem_takeWhile path)
  · rw [hrest] at hsplit ⊢
    rw [hsplit,getLast?_append_of_ne_nil _ (cons_ne_nil _ _)]

theorem validatePath_spec (fuel : Nat) (path : List Char) (h : path.length ≤ fuel) :
    ¬ validatePath fuel path < 0 ↔ ∀ name ∈ components path, ¬ validateComponent name < 0 := by
  induction fuel generalizing path with
  | zero =>
    obtain rfl := eq_nil_of_length_eq_zero (Nat.le_zero.mp h)
    simp [validatePath,components,splitOn_nil]
  | succ fuel ih =>
    cases path with
    | nil => simp [validatePath,components,splitOn_nil]
    | cons c path =>
      have hlen : path.length ≤ fuel := Nat.le_of_succ_le_succ h
      by_cases hc : c = '/'
      · subst hc
        rw [validatePath,if_pos rfl,components_slash,ih path hlen]
      have hdrop : (path.dropWhile (· ≠ '/')).length ≤ fuel := (dropWhile_sublist _).length_le.trans hlen
      rw [validatePath,if_neg hc,components_name hc,forall_mem_cons,← ih _ hdrop]
      by_cases hv : validateComponent (c :: path.takeWhile (· ≠ '/')) < 0
      · simp only [hv,↓reduceIte,not_true_eq_false,false_and]
      · simp only [hv,↓reduceIte,not_false_eq_true,true_and]

theorem validateComponent_spec {name : List Char} : ¬ validateComponent name < 0 ↔
    1 ≤ name.length ∧ name.length ≤ 127 ∧ name ≠ ['.'] ∧ name ≠ ['.','.'] := by
  unfold validateComponent
  split
  · omega
  split
  · omega
  split
  · rename_i hdots
    exact ⟨fun h => absurd (by decide) h,fun h => absurd hdots (not_or.mpr h.2.2)⟩
  · rename_i hdots
    exact ⟨fun _ => ⟨by omega,by omega,not_or.mp hdots⟩,fun _ => by decide⟩

theorem resolveCheck_spec {root : Nat} (hroot : root ≠ 0) (path : List Char) :
    ¬ resolveCheck (some path) root < 0 ↔ ValidPath path := by
  cases path with
  | nil => exact ⟨fun h => absurd (show (-2 : Int) < 0 by decide) h,fun h => absurd h.absolute (by decide)⟩
  | cons c path =>
    unfold resolveCheck
    dsimp only
    by_cases hc : c = '/'
    · subst hc
      by_cases hlen : ('/' :: path).length ≥ 1024
      · rw [if_neg (by simp),if_pos hlen]
        exact ⟨fun h => absurd (by decide) h,fun h => absurd h.length (by omega)⟩
      rw [if_neg (by simp),if_neg hlen]
      have hnames := validatePath_spec path.length path (le_rfl)
      simp only [validateComponent_spec] at hnames
      have hvalid : ValidPath ('/' :: path) ↔ ¬ validatePath path.length path < 0 := by
        rw [hnames,← components_slash]
        exact ⟨fun h => h.names,fun h => ⟨rfl,by omega,h⟩⟩
      split <;> simp_all
    · rw [if_pos hc]
      exact ⟨fun h => absurd (by decide) h,fun h => absurd (Option.some.inj h.absolute) hc⟩

theorem nextComponent_spec (path : List Char) :
    nextComponent true path = .ok none ∧ components path = [] ∧ (path ≠ [] → path.getLast? = some '/') ∨
    ∃ name rest, nextComponent true path = .ok (some (name,rest)) ∧ components path = name :: components rest ∧
      '/' ∉ name ∧ rest.length < path.length ∧ (rest = [] ∨ rest.head? = some '/') ∧
      (path.getLast? = some '/' ↔ rest.getLast? = some '/') := by
  induction path with
  | nil => exact .inl ⟨rfl,by simp [components,splitOn_nil],fun h => absurd rfl h⟩
  | cons c path ih =>
    by_cases hc : c = '/'
    · subst hc
      rcases ih with ⟨hn,hcs,hlast⟩ | ⟨name,rest,hn,hcs,hname,hlen,hhead,hlast⟩
      · refine .inl ⟨hn,hcs,fun _ => ?_⟩
        cases path with
        | nil => rfl
        | cons d path => exact hlast (cons_ne_nil _ _)
      refine .inr ⟨name,rest,hn,hcs,hname,by simp only [length_cons]; omega,hhead,?_⟩
      cases path with
      | nil => cases hn
      | cons d path => exact hlast
    refine .inr ⟨c :: path.takeWhile (· ≠ '/'),path.dropWhile (· ≠ '/'),
      by simp [nextComponent,hc],components_name hc path,
      ?_,Nat.lt_succ_of_le (dropWhile_sublist _).length_le,?_,getLast?_name hc path⟩
    · simp only [mem_cons,not_or]
      exact ⟨fun h => hc h.symm,slash_notMem_takeWhile path⟩
    rcases dropWhile_cases path with hnil | ⟨rest,hrest⟩
    · exact .inl hnil
    · exact .inr (by rw [hrest]; rfl)

namespace Namespace
variable {σ : Type} {ns : Namespace σ} {cells : Nat → Cell} {w : Walk σ} {held : List Nat} {node : Nat}

@[simp] theorem retain_fs (w : Walk σ) (node : Nat) : (ns.retain w node).fs = w.fs := by
  unfold retain
  split <;> rfl

@[simp] theorem release_fs (w : Walk σ) (node : Nat) : (ns.release w node).fs = w.fs := by
  unfold release
  split <;> rfl

/-- Against the counters at the start, the walk has one more reference for each node in `held`. -/
structure Holds (ns : Namespace σ) (cells : Nat → Cell) (w : Walk σ) (held : List Nat) : Prop where
  refs : ∀ m, (w.cells m).refs = (cells m).refs + if (ns.kinds m).managed then held.count m else 0
  ended : ∀ m, 0 < (cells m).refs → (w.cells m).ended = (cells m).ended

theorem Holds.retain (h : Holds ns cells w held) (node : Nat) : Holds ns cells (ns.retain w node) (node :: held) := by
  unfold Namespace.retain
  by_cases hm : (ns.kinds node).managed = true
  · rw [if_pos hm]
    refine ⟨fun m => ?_,fun m hpos => ?_⟩
    · by_cases hnode : m = node
      · subst hnode
        simp [apply,Cell.retain,h.refs,hm,Nat.add_assoc]
      · simp [apply,hnode,h.refs,Ne.symm hnode]
    by_cases hnode : m = node
    · subst hnode
      simpa [apply,Cell.retain] using h.ended m hpos
    · simpa [apply,hnode] using h.ended m hpos
  rw [if_neg hm]
  refine ⟨fun m => ?_,h.ended⟩
  by_cases hnode : m = node
  · subst hnode
    simpa [hm] using h.refs m
  · simpa [count_cons,Ne.symm hnode] using h.refs m

theorem Holds.release (h : Holds ns cells w (node :: held)) : Holds ns cells (ns.release w node) held := by
  unfold Namespace.release
  by_cases hm : (ns.kinds node).managed = true
  · rw [if_pos hm]
    have hrefs := h.refs node
    rw [if_pos hm,count_cons_self] at hrefs
    refine ⟨fun m => ?_,fun m hpos => ?_⟩
    · by_cases hnode : m = node
      · subst hnode
        simp only [apply,Function.update_self,Cell.release,hrefs,hm,if_true]
        omega
      · simpa [apply,hnode,count_cons,Ne.symm hnode] using h.refs m
    by_cases hnode : m = node
    · subst hnode
      have hmore : (w.cells m).refs ≠ 1 := by omega
      simpa [apply,Cell.release,hmore] using h.ended m hpos
    · simpa [apply,hnode] using h.ended m hpos
  rw [if_neg hm]
  refine ⟨fun m => ?_,h.ended⟩
  by_cases hnode : m = node
  · subst hnode
    simpa [hm] using h.refs m
  · simpa [count_cons,Ne.symm hnode] using h.refs m

theorem Holds.reset {child : Nat} (h : Holds ns cells w [child,node]) : Holds ns cells (ns.release w node) [child] := by
  have hswap : Holds ns cells w [node,child] :=
    ⟨fun m => by rw [h.refs m,(Perm.swap node child []).count_eq m],h.ended⟩
  exact hswap.release

def owned : Except Int Nat → List Nat
  | .ok node => [node]
  | .error _ => []

theorem Holds.lookupChild (h : Holds ns cells w held) (directory : Nat) (name : List Char) :
    Holds ns cells (ns.lookupChild w directory name).2 (owned (ns.lookupChild w directory name).1 ++ held) := by
  unfold Namespace.lookupChild
  dsimp only
  split
  · exact h
  have hcalled : Holds ns cells ⟨(ns.lookup w.fs directory name).2.2,w.calls ++ [(directory,name)],w.cells⟩ held :=
    ⟨h.refs,h.ended⟩
  split
  · exact hcalled
  split
  · exact hcalled
  · exact hcalled.retain _

theorem Holds.walk (fuel : Nat) {current : Nat} (path : List Char) (h : Holds ns cells w [current]) :
    Holds ns cells (ns.walk fuel current path w).2 (owned (ns.walk fuel current path w).1) := by
  induction fuel generalizing current path w with
  | zero => exact h
  | succ fuel ih =>
    rw [Namespace.walk]
    cases nextComponent (ns.isDirectory current) path with
    | error error => exact h.release
    | ok next =>
      cases next with
      | none => exact h
      | some next =>
        obtain ⟨name,rest⟩ := next
        have hlookup := h.lookupChild current name
        dsimp only
        cases hl : ns.lookupChild w current name with
        | mk answer w' =>
          rw [hl] at hlookup
          cases answer with
          | error error => exact hlookup.release
          | ok child => exact ih rest hlookup.reset

/-- The callbacks folded over the components of a path; `slash` says whether the path ends in one. -/
def fold (ns : Namespace σ) (slash : Bool) : σ → Nat → List (List Char) → Except Int Nat × σ
  | fs, node, [] => (if slash && !ns.isDirectory node then .error (-20) else .ok node,fs)
  | fs, node, name :: names =>
    if ns.isDirectory node then
      let r := ns.lookup fs node name
      if r.1 < 0 then (.error r.1,r.2.2) else ns.fold slash r.2.2 r.2.1 names
    else (.error (-20),fs)

/-- Each directory has a callback, which returns a child with 0 and none with an error. -/
structure Answers (ns : Namespace σ) : Prop where
  callback : ∀ node, (ns.kinds node).type = .directory → (ns.kinds node).lookup = true
  answer : ∀ fs node name, (ns.kinds node).type = .directory →
    (ns.lookup fs node name).1 = 0 ∧ (ns.lookup fs node name).2.1 ≠ 0 ∨
    (ns.lookup fs node name).1 < 0 ∧ (ns.lookup fs node name).2.1 = 0

theorem lookupCheck_of_valid {kind : NodeKind} {name : List Char} (hname : ¬ validateComponent name < 0)
    (hslash : '/' ∉ name)
    (htype : kind.type = .directory) (hlookup : kind.lookup = true) : lookupCheck kind name = 0 := by
  have hlen := (validateComponent_spec.mp hname).2.1
  unfold lookupCheck
  rw [if_neg fun h => hslash (mem_of_mem_take h),if_neg (by omega),if_neg hname]
  simp [htype,hlookup]

theorem Answers.lookupChild (h : ns.Answers) (hd : ns.isDirectory node = true) {name : List Char}
    (hname : ¬ validateComponent name < 0) (hslash : '/' ∉ name) :
    (ns.lookup w.fs node name).1 < 0 ∧ (ns.lookupChild w node name).1 = .error (ns.lookup w.fs node name).1 ∧
      (ns.lookupChild w node name).2.fs = (ns.lookup w.fs node name).2.2 ∨
    ¬ (ns.lookup w.fs node name).1 < 0 ∧ (ns.lookupChild w node name).1 = .ok (ns.lookup w.fs node name).2.1 ∧
      (ns.lookupChild w node name).2.fs = (ns.lookup w.fs node name).2.2 := by
  have htype : (ns.kinds node).type = .directory := of_decide_eq_true hd
  have hcheck := lookupCheck_of_valid hname hslash htype (h.callback node htype)
  unfold Namespace.lookupChild
  rw [hcheck]
  rcases h.answer w.fs node name htype with ⟨hzero,hchild⟩ | ⟨hneg,-⟩
  · exact .inr ⟨by omega,by simp [hzero,hchild]⟩
  · exact .inl ⟨hneg,by simp [hneg]⟩

theorem walk_eq_fold (h : ns.Answers) (fuel : Nat) {current : Nat} (path : List Char) (hfuel : path.length < fuel)
    (hhead : path = [] ∨ path.head? = some '/') (hnames : ∀ name ∈ components path, ¬ validateComponent name < 0) :
    ((ns.walk fuel current path w).1,(ns.walk fuel current path w).2.fs) =
      ns.fold (decide (path.getLast? = some '/')) w.fs current (components path) := by
  induction fuel generalizing current path w with
  | zero => omega
  | succ fuel ih =>
    have hnext := nextComponent_spec path
    cases hd : ns.isDirectory current with
    | false =>
      cases path with
      | nil => simp [walk,hd,nextComponent,components,splitOn_nil,fold]
      | cons c path =>
        obtain rfl : c = '/' := by simpa using hhead
        have hwalk : ns.walk (fuel + 1) current ('/' :: path) w = (.error (-20),ns.release w current) := by
          simp [walk,hd,nextComponent]
        rw [hwalk]
        -- only slashes, or a component behind them: the first slash fails either way
        cases hcs : components ('/' :: path) with
        | nil =>
          rcases hnext with ⟨-,-,hlast⟩ | ⟨name,rest,-,hcs',-⟩
          · simp [fold,hd,hlast (cons_ne_nil _ _)]
          rw [hcs'] at hcs
          cases hcs
        | cons name names => simp [fold,hd]
    | true =>
      rcases hnext with ⟨hn,hcs,-⟩ | ⟨name,rest,hn,hcs,hslash,hlen,hrest,hlast⟩
      · simp [walk,hd,hn,hcs,fold]
      rw [hcs] at hnames ⊢
      obtain ⟨hname,hnames⟩ := forall_mem_cons.mp hnames
      rw [walk,hd,hn]
      dsimp only
      rw [fold,if_pos hd]
      cases hl : ns.lookupChild w current name with
      | mk answer w' =>
        rcases h.lookupChild hd (w := w) hname hslash with ⟨hneg,hanswer,hfs⟩ | ⟨hneg,hanswer,hfs⟩
        · rw [hl] at hanswer hfs
          dsimp only at hanswer hfs
          rw [if_pos hneg,hanswer]
          rw [release_fs,hfs]
        rw [hl] at hanswer hfs
        dsimp only at hanswer hfs
        rw [if_neg hneg,hanswer]
        rw [ih rest (by omega) hrest hnames,release_fs,hfs]
        simp only [hlast]

end Namespace

/-- A path that is not valid fails before anything happens. For one that is, the result is the fold of
the callbacks over the components, and the only reference that remains is the one to the result. -/
theorem path_resolution {σ : Type} (ns : Namespace σ) (h : ns.Answers) (hroot : ns.root ≠ 0)
    (path : List Char) (w : Walk σ) :
    let r := ns.resolvePath (some path) w
    (¬ ValidPath path → r.2 = w ∧ ∃ error : Int, error < 0 ∧ r.1 = .error error) ∧
    (ValidPath path →
      (r.1,r.2.fs) = ns.fold (decide (path.getLast? = some '/')) w.fs ns.root (components path)) ∧
    ∀ node, (r.1 = .ok node ∧ (ns.kinds node).managed = true → (r.2.cells node).refs = (w.cells node).refs + 1) ∧
      (¬ (r.1 = .ok node ∧ (ns.kinds node).managed = true) → (r.2.cells node).refs = (w.cells node).refs) ∧
      (0 < (w.cells node).refs → (r.2.cells node).ended = (w.cells node).ended) := by
  intro r
  have hcheck := resolveCheck_spec hroot path
  have hstart : ns.Holds w.cells w [] := ⟨fun _ => by simp,fun _ _ => rfl⟩
  have hends : ns.Holds w.cells r.2 (Namespace.owned r.1) := by
    change ns.Holds w.cells (ns.resolvePath (some path) w).2 (Namespace.owned (ns.resolvePath (some path) w).1)
    unfold Namespace.resolvePath
    dsimp only
    split
    · exact hstart
    · exact (hstart.retain ns.root).walk _ _
  refine ⟨fun hv => ?_,fun hv => ?_,fun node => ⟨fun ⟨hok,hm⟩ => ?_,fun hne => ?_,hends.ended node⟩⟩
  · have hneg : resolveCheck (some path) ns.root < 0 := Decidable.not_not.mp fun hn => hv (hcheck.mp hn)
    have hr : r = (.error (resolveCheck (some path) ns.root),w) := by
      change ns.resolvePath (some path) w = _
      rw [Namespace.resolvePath,if_pos hneg]
    rw [hr]
    exact ⟨rfl,_,hneg,rfl⟩
  · have hr : r = ns.walk (path.length + 1) ns.root path (ns.retain w ns.root) := by
      change ns.resolvePath (some path) w = _
      rw [Namespace.resolvePath,if_neg (hcheck.mpr hv),Option.getD_some]
    rw [hr,Namespace.walk_eq_fold h _ path (Nat.lt_succ_self _) (.inr hv.absolute)
      fun name hname => validateComponent_spec.mpr (hv.names name hname),Namespace.retain_fs]
  · rw [hends.refs,hok,if_pos hm]
    simp [Namespace.owned]
  rw [hends.refs]
  cases hres : r.1 with
  | error error => simp [Namespace.owned]
  | ok result =>
    by_cases hm : (ns.kinds node).managed = true
    · have hother : result ≠ node := fun heq => hne ⟨by rw [hres,heq],hm⟩
      simp [Namespace.owned,hm,hother]
    · simp [hm]

def oneFile : Namespace Unit where
  kinds node := ⟨node = 2,if node = 1 then .directory else .regular,node = 1,false,false⟩
  root := 1
  lookup _ _ name := if name = ['a'] then (0,2,()) else (-2,0,())

theorem oneFile_answers : oneFile.Answers := by
  refine ⟨fun node hd => ?_,fun fs node name _ => ?_⟩
  · by_cases hnode : node = 1
    · simp [oneFile,hnode]
    · simp [oneFile,hnode] at hd
  by_cases hname : name = ['a']
  · exact .inl (by simp [oneFile,hname])
  · exact .inr (by simp [oneFile,hname])

theorem path_resolution_oneFile :
    let r := oneFile.resolvePath (some ['/','/','a']) ⟨(),[],fun _ => ⟨0,0⟩⟩
    r.1 = .ok 2 ∧ (r.2.cells 2).refs = 1 :=
  have hok : (oneFile.resolvePath (some ['/','/','a']) ⟨(),[],fun _ => ⟨0,0⟩⟩).1 = .ok 2 := by rfl
  ⟨hok,((path_resolution oneFile oneFile_answers (by decide) _ _).2.2 2).1 ⟨hok,rfl⟩⟩

end Rucux.Vfs
