import Mathlib.Data.List.Nodup

/-! Linked lists in a memory. A cell is an address, 0 is null, and `next` and `prev` give what the fields of
each cell hold. -/

namespace Rucux.Lib
open Function List

/-- From `head` on, the cells `xs` lead to null. -/
def Threaded (next : Nat → Nat) : Nat → List Nat → Prop
  | head, [] => head = 0
  | head, x :: xs => head = x ∧ x ≠ 0 ∧ Threaded next (next x) xs

section
variable {next : Nat → Nat} {head : Nat} {xs : List Nat} (h : Threaded next head xs)
include h

theorem Threaded.congr {next' : Nat → Nat} (hn : ∀ x ∈ xs, next' x = next x) : Threaded next' head xs := by
  induction xs generalizing head with
  | nil => exact h
  | cons x xs ih =>
    refine ⟨h.1,h.2.1,?_⟩
    rw [hn x (by simp)]
    exact ih h.2.2 fun y hy => hn y (by simp [hy])

theorem Threaded.push {x : Nat} (h0 : x ≠ 0) (hx : x ∉ xs) :
    Threaded (update next x head) x (x :: xs) := by
  refine ⟨rfl,h0,?_⟩
  rw [update_self]
  exact h.congr fun y hy => update_of_ne (ne_of_mem_of_not_mem hy hx) _ _

theorem Threaded.head_zero : head = 0 ↔ xs = [] := by
  cases xs with
  | nil =>
    simp only [iff_true]
    exact h
  | cons x xs => simp [h.1,h.2.1]

end

/-- The cells `xs` point at each other, with `p` before the first and `q` after the last. -/
def Linked (next prev : Nat → Nat) : Nat → List Nat → Nat → Prop
  | _, [], _ => True
  | p, x :: xs, q => prev x = p ∧ next x = xs.headD q ∧ Linked next prev x xs q

section
variable {next next' prev prev' : Nat → Nat} {p q a x : Nat} {xs ys : List Nat}

theorem headD_append (xs ys : List Nat) (q : Nat) : (xs ++ ys).headD q = xs.headD (ys.headD q) := by
  cases xs <;> rfl

theorem linked_append : Linked next prev p (xs ++ ys) q ↔
      Linked next prev p xs (ys.headD q) ∧ Linked next prev (xs.getLastD p) ys q := by
  induction xs generalizing p with
  | nil => simp [Linked]
  | cons x xs ih => simp only [cons_append,Linked,ih,headD_append,getLastD_cons,and_assoc]

section
variable (h : Linked next prev p xs q)
include h

theorem Linked.congr (hn : ∀ x ∈ xs, next' x = next x) (hp : ∀ x ∈ xs, prev' x = prev x) :
    Linked next' prev' p xs q := by
  induction xs generalizing p with
  | nil => trivial
  | cons x xs ih =>
    obtain ⟨h1,h2,h3⟩ := h
    refine ⟨by simp [hp,h1],by simp [hn,h2],ih h3 ?_ ?_⟩
    · exact fun y hy => hn y (by simp [hy])
    · exact fun y hy => hp y (by simp [hy])

theorem Linked.update_next (ha : a ∉ xs) (v : Nat) : Linked (update next a v) prev p xs q :=
  h.congr (fun _ hx => update_of_ne (ne_of_mem_of_not_mem hx ha) _ _) fun _ _ => rfl

theorem Linked.update_prev (ha : a ∉ xs) (v : Nat) : Linked next (update prev a v) p xs q :=
  h.congr (fun _ _ => rfl) fun _ hx => update_of_ne (ne_of_mem_of_not_mem hx ha) _ _

theorem Linked.setLast (hd : xs.Nodup) (z v : Nat) :
    Linked (update next (xs.getLastD z) v) prev p xs v := by
  induction xs generalizing p z with
  | nil => trivial
  | cons x xs ih =>
    obtain ⟨h1,h2,h3⟩ := h
    obtain ⟨hx,hd⟩ := nodup_cons.mp hd
    have hlast := ih h3 hd x
    rw [getLastD_cons]
    refine ⟨h1,?_,hlast⟩
    cases xs with
    | nil => exact update_self ..
    | cons y ys =>
      have hne : x ≠ (y :: ys).getLastD x := fun he =>
        hx (by rw [he,getLastD_cons]; exact getLastD_mem_cons)
      rw [update_of_ne hne,h2]
      rfl

theorem Linked.setFirst (hd : xs.Nodup) (z v : Nat) :
    Linked next (update prev (xs.headD z) v) v xs q := by
  cases xs with
  | nil => trivial
  | cons x xs =>
    obtain ⟨h1,h2,h3⟩ := h
    exact ⟨by simp,h2,h3.update_prev (nodup_cons.mp hd).1 v⟩

end

end

def pushNext (next : Nat → Nat) (head x : Nat) : Nat → Nat := update next x head

def pushPrev (prev : Nat → Nat) (head x : Nat) : Nat → Nat :=
  if head = 0 then update prev x 0
  else update (update prev x 0) head x

def insertNext (next : Nat → Nat) (a x : Nat) : Nat → Nat :=
  update (update next x (next a)) a x

def insertPrev (next prev : Nat → Nat) (a x : Nat) : Nat → Nat :=
  if next a = 0 then update prev x a
  else update (update prev x a) (next a) x

def unlinkNext (next prev : Nat → Nat) (x : Nat) : Nat → Nat :=
  if prev x = 0 then next else update next (prev x) (next x)

def unlinkPrev (next prev : Nat → Nat) (x : Nat) : Nat → Nat :=
  if next x = 0 then prev else update prev (next x) (prev x)

section
variable {next prev : Nat → Nat} {a x : Nat} {xs l r : List Nat}

theorem headD_zero_iff (h0 : 0 ∉ xs) : xs.headD 0 = 0 ↔ xs = [] := by
  cases xs with
  | nil => simp
  | cons y ys =>
    have hy : y ≠ 0 := fun h => h0 (by simp [h])
    simp [hy]

theorem getLastD_zero_iff (h0 : 0 ∉ xs) : xs.getLastD 0 = 0 ↔ xs = [] := by
  cases xs with
  | nil => simp
  | cons y ys =>
    have hm : (y :: ys).getLastD 0 ∈ y :: ys := by
      rw [getLastD_cons]
      exact getLastD_mem_cons
    simp only [reduceCtorEq,iff_false]
    exact fun h => h0 (h ▸ hm)

theorem headD_mem (h : xs ≠ []) (z : Nat) : xs.headD z ∈ xs := by
  cases xs with
  | nil => exact absurd rfl h
  | cons y ys => simp

theorem getLastD_mem (h : xs ≠ []) (z : Nat) : xs.getLastD z ∈ xs := by
  cases xs with
  | nil => exact absurd rfl h
  | cons y ys =>
    rw [getLastD_cons]
    exact getLastD_mem_cons

theorem Linked.push (h : Linked next prev 0 xs 0) (hd : xs.Nodup) (h0 : 0 ∉ xs) (hx : x ∉ xs) :
    Linked (pushNext next (xs.headD 0) x) (pushPrev prev (xs.headD 0) x) 0 (x :: xs) 0 := by
  unfold pushNext pushPrev
  by_cases hnil : xs = []
  · subst hnil
    simp [Linked]
  rw [if_neg (by rwa [headD_zero_iff h0])]
  have hne : x ≠ xs.headD 0 := fun he => hx (he ▸ headD_mem hnil 0)
  have hrest := ((h.update_next hx (xs.headD 0)).update_prev hx 0).setFirst hd 0 x
  exact ⟨by simp only [update_of_ne hne,update_self],by simp,hrest⟩

theorem Linked.at (h : Linked next prev 0 (l ++ x :: r) 0) :
    prev x = l.getLastD 0 ∧ next x = r.headD 0 ∧ Linked next prev 0 l x ∧ Linked next prev x r 0 := by
  obtain ⟨hl,hx,hr⟩ := linked_append.mp h
  exact ⟨hx,hr.1,hl,hr.2⟩

theorem Linked.insert (h : Linked next prev 0 (l ++ a :: r) 0) (hd : (l ++ a :: r).Nodup)
    (h0 : 0 ∉ l ++ a :: r) (hx : x ∉ l ++ a :: r) :
    Linked (insertNext next a x) (insertPrev next prev a x) 0 (l ++ a :: x :: r) 0 := by
  obtain ⟨hprev,hnext,hl,hr⟩ := h.at
  simp only [mem_append,mem_cons,not_or] at hx h0
  obtain ⟨hxl,hxa,hxr⟩ := hx
  obtain ⟨-,-,h0r⟩ := h0
  have hd' := nodup_append'.mp hd
  obtain ⟨har,hdr⟩ := nodup_cons.mp hd'.2.1
  have hal : a ∉ l := fun hm => hd'.2.2 hm (by simp)
  -- the writes meet the left part nowhere, and the right part in its first cell
  have hleft : Linked (insertNext next a x) (insertPrev next prev a x) 0 l a := by
    have hhead : r ≠ [] → r.headD 0 ∉ l :=
      fun hne hm => hd'.2.2 hm (mem_cons_of_mem _ (headD_mem hne 0))
    unfold insertNext insertPrev
    split
    · exact ((hl.update_next hxl _).update_next hal _).update_prev hxl _
    rename_i hne
    rw [hnext] at hne ⊢
    rw [headD_zero_iff h0r] at hne
    exact (((hl.update_next hxl _).update_next hal _).update_prev hxl _).update_prev (hhead hne) _
  have hright : Linked (insertNext next a x) (insertPrev next prev a x) x r 0 := by
    unfold insertNext insertPrev
    rw [hnext]
    by_cases hnil : r = []
    · subst hnil
      trivial
    · rw [if_neg (by rwa [headD_zero_iff h0r])]
      exact (((hr.update_next hxr _).update_next har _).update_prev hxr _).setFirst hdr 0 x
  have hfields : insertPrev next prev a x a = l.getLastD 0 ∧ insertPrev next prev a x x = a := by
    unfold insertPrev
    split
    · simp [update_of_ne (Ne.symm hxa),hprev]
    rename_i hne
    rw [hnext] at hne ⊢
    rw [headD_zero_iff h0r] at hne
    have h1 : a ≠ r.headD 0 := fun he => har (he ▸ headD_mem hne 0)
    have h2 : x ≠ r.headD 0 := fun he => hxr (he ▸ headD_mem hne 0)
    simp only [update_of_ne h1,update_of_ne h2,update_self, update_of_ne (Ne.symm hxa),hprev,and_self]
  refine linked_append.mpr ⟨hleft,hfields.1,by simp [insertNext],hfields.2,?_,hright⟩
  simp [insertNext,update_of_ne hxa,hnext]

theorem Linked.unlink (h : Linked next prev 0 (l ++ x :: r) 0) (hd : (l ++ x :: r).Nodup)
    (h0 : 0 ∉ l ++ x :: r) :
    Linked (unlinkNext next prev x) (unlinkPrev next prev x) 0 (l ++ r) 0 := by
  obtain ⟨hprev,hnext,hl,hr⟩ := h.at
  simp only [mem_append,mem_cons,not_or] at h0
  obtain ⟨h0l,-,h0r⟩ := h0
  have hd' := nodup_append'.mp hd
  obtain ⟨-,hdr⟩ := nodup_cons.mp hd'.2.1
  have hleft : Linked (unlinkNext next prev x) prev 0 l (r.headD 0) := by
    unfold unlinkNext
    rw [hprev,hnext]
    by_cases hnil : l = []
    · subst hnil
      trivial
    · rw [if_neg (by rwa [getLastD_zero_iff h0l])]
      exact hl.setLast hd'.1 0 _
  have hright : Linked next (unlinkPrev next prev x) (l.getLastD 0) r 0 := by
    unfold unlinkPrev
    rw [hprev,hnext]
    by_cases hnil : r = []
    · subst hnil
      trivial
    · rw [if_neg (by rwa [headD_zero_iff h0r])]
      exact hr.setFirst hdr 0 _
  refine linked_append.mpr ⟨?_,?_⟩
  · unfold unlinkPrev
    split
    · exact hleft
    rename_i hne
    rw [hnext,headD_zero_iff h0r] at hne
    rw [hnext]
    exact hleft.update_prev (fun hm => hd'.2.2 hm (mem_cons_of_mem _ (headD_mem hne 0))) _
  unfold unlinkNext
  split
  · exact hright
  rename_i hne
  rw [hprev,getLastD_zero_iff h0l] at hne
  rw [hprev]
  exact hright.update_next (fun hm => hd'.2.2 (getLastD_mem hne 0) (mem_cons_of_mem _ hm)) _

end

/-! A singly linked queue with a tail pointer. `nodes` is the chain reached from the head pointer, each node
with its address. -/

structure LinkedQueue (α : Type) where
  nodes : List (Nat × α)
  tail : Option Nat
  deriving DecidableEq, Repr

namespace LinkedQueue
variable {α : Type}

def empty : LinkedQueue α := ⟨[],none⟩

def addrs (q : LinkedQueue α) : List Nat := q.nodes.map Prod.fst

/-- What a write of `n` into the link of the node at `t` does to the chain. -/
def linkAfter (t : Nat) (n : Nat × α) : List (Nat × α) → List (Nat × α)
  | [] => []
  | x :: xs => if x.1 = t then [x,n] else x :: linkAfter t n xs

def push (q : LinkedQueue α) (a : Nat) (x : α) : LinkedQueue α :=
  match q.tail with
  | none => ⟨[(a,x)],some a⟩
  | some t => ⟨linkAfter t (a,x) q.nodes,some a⟩

def pop (q : LinkedQueue α) : LinkedQueue α :=
  ⟨q.nodes.tail,if q.nodes.tail.isEmpty then none else q.tail⟩

def dropNode (a : Nat) : List (Nat × α) → List (Nat × α)
  | [] => []
  | x :: xs => if x.1 = a then xs else x :: dropNode a xs

def before (a : Nat) : Option Nat → List (Nat × α) → Option Nat
  | previous, [] => previous
  | previous, x :: xs => if x.1 = a then previous else before a (some x.1) xs

def unlink (q : LinkedQueue α) (a : Nat) : LinkedQueue α :=
  if a ∈ q.addrs then
    ⟨dropNode a q.nodes,if q.tail = some a then before a none q.nodes else q.tail⟩
  else q

structure Linked (q : LinkedQueue α) : Prop where
  tail_eq : q.tail = q.addrs.getLast?
  nodup : q.addrs.Nodup

theorem linked_empty : (empty : LinkedQueue α).Linked := ⟨rfl,nodup_nil⟩

@[simp] theorem addrs_empty : (empty : LinkedQueue α).addrs = [] := rfl

variable {q : LinkedQueue α}

theorem Linked.tail_none (h : q.Linked) : q.tail = none ↔ q.nodes = [] := by
  rw [h.tail_eq]; simp [addrs]

theorem linkAfter_last (t : Nat) (n : Nat × α) (xs : List (Nat × α))
    (hl : (xs.map Prod.fst).getLast? = some t) (hd : (xs.map Prod.fst).Nodup) :
    linkAfter t n xs = xs ++ [n] := by
  induction xs with
  | nil => simp at hl
  | cons x xs ih =>
    cases xs with
    | nil =>
      have hx : x.1 = t := by simpa using hl
      simp [linkAfter,hx]
    | cons y ys =>
      have hl' : ((y :: ys).map Prod.fst).getLast? = some t := by
        simpa [getLast?_cons_cons] using hl
      have hne : x.1 ≠ t := by
        rintro rfl
        exact (nodup_cons.mp hd).1 (mem_of_getLast? hl')
      rw [linkAfter,if_neg hne,ih hl' (nodup_cons.mp hd).2]
      rfl

theorem Linked.push_nodes (h : q.Linked) (a : Nat) (x : α) : (q.push a x).nodes = q.nodes ++ [(a,x)] := by
  unfold push
  cases ht : q.tail with
  | none => simp [h.tail_none.mp ht]
  | some t =>
    have hl := h.tail_eq
    rw [ht] at hl
    exact linkAfter_last t (a,x) q.nodes hl.symm h.nodup

@[simp] theorem push_tail (q : LinkedQueue α) (a : Nat) (x : α) : (q.push a x).tail = some a := by
  unfold push; split <;> rfl

theorem Linked.push_addrs (h : q.Linked) (a : Nat) (x : α) : (q.push a x).addrs = q.addrs ++ [a] := by
  simp [addrs,h.push_nodes]

theorem Linked.push (h : q.Linked) {a : Nat} (x : α) (ha : a ∉ q.addrs) : (q.push a x).Linked := by
  refine ⟨by rw [h.push_addrs]; simp,?_⟩
  rw [h.push_addrs,← concat_eq_append]
  exact h.nodup.concat ha

theorem Linked.suffix (h : q.Linked) {xs : List (Nat × α)} (hs : xs.map Prod.fst <:+ q.addrs) :
    (⟨xs,if xs.isEmpty then none else q.tail⟩ : LinkedQueue α).Linked := by
  refine ⟨?_,h.nodup.sublist hs.sublist⟩
  cases xs with
  | nil => rfl
  | cons x xs =>
    obtain ⟨front,hf⟩ := hs
    simp only [isEmpty_cons,Bool.false_eq_true,if_false,addrs]
    rw [h.tail_eq,← hf]
    exact getLast?_append_of_ne_nil front (by simp)

theorem Linked.pop (h : q.Linked) : q.pop.Linked :=
  h.suffix (by rw [map_tail]; exact tail_suffix _)

theorem map_dropNode (a : Nat) (xs : List (Nat × α)) :
    (dropNode a xs).map Prod.fst = (xs.map Prod.fst).erase a := by
  induction xs with
  | nil => rfl
  | cons x xs ih =>
    by_cases hx : x.1 = a
    · simp [dropNode,hx]
    · simp [dropNode,hx,ih]

theorem unlink_addrs (q : LinkedQueue α) (a : Nat) : (q.unlink a).addrs = q.addrs.erase a := by
  unfold unlink
  split
  · exact map_dropNode a q.nodes
  rename_i hn
  exact (erase_of_not_mem hn).symm

theorem before_last (a : Nat) (previous : Option Nat) (xs : List (Nat × α))
    (hl : (xs.map Prod.fst).getLast? = some a) (hd : (xs.map Prod.fst).Nodup) :
    before a previous xs = (previous.toList ++ (xs.map Prod.fst).erase a).getLast? := by
  induction xs generalizing previous with
  | nil => simp at hl
  | cons x xs ih =>
    by_cases hx : x.1 = a
    · have hxs : xs = [] := by
        cases xs with
        | nil => rfl
        | cons y ys =>
          have hl' : ((y :: ys).map Prod.fst).getLast? = some a := by
            simpa [getLast?_cons_cons] using hl
          exact absurd (hx ▸ mem_of_getLast? hl') (nodup_cons.mp hd).1
      subst hxs
      cases previous <;> simp [before,hx]
    have hl' : (xs.map Prod.fst).getLast? = some a := by
      cases xs with
      | nil => exact absurd (by simpa using hl) hx
      | cons y ys => simpa [getLast?_cons_cons] using hl
    rw [before,if_neg hx,ih (some x.1) hl' (nodup_cons.mp hd).2]
    rw [map_cons,erase_cons_tail (by simpa using hx),Option.toList_some, singleton_append]
    exact (getLast?_append_of_ne_nil previous.toList (by simp)).symm

theorem Linked.unlink (h : q.Linked) (a : Nat) : (q.unlink a).Linked := by
  refine ⟨?_,by rw [unlink_addrs]; exact h.nodup.erase a⟩
  rw [unlink_addrs]
  unfold LinkedQueue.unlink
  split
  · by_cases ht : q.tail = some a
    · rw [if_pos ht]
      have hl := h.tail_eq
      rw [ht] at hl
      exact before_last a none q.nodes hl.symm h.nodup
    rw [if_neg ht]
    show q.tail = _
    rw [h.tail_eq] at ht ⊢
    -- The last address is not the one erased, so it is still the last.
    obtain hnil | ⟨front,l,hfl⟩ := eq_nil_or_concat q.addrs
    · simp [hnil]
    rw [hfl] at ht ⊢
    have hne : l ≠ a := by simpa using ht
    rw [concat_eq_append,getLast?_append]
    by_cases hm : a ∈ front
    · rw [erase_append_left _ hm]; simp
    · rw [erase_append_right _ hm]; simp [hne]
  rename_i hn
  rw [erase_of_not_mem hn]
  exact h.tail_eq

end LinkedQueue
end Rucux.Lib
