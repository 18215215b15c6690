import Mathlib.Data.List.Nodup
import Mathlib.Data.List.Perm.Subperm

/-! The order in which `resolve_ports.py` builds ports. -/

namespace Rucux.Tools
open List Relation
variable {α : Type} [DecidableEq α]

inductive PortError (α : Type) where
  | cyclic (port : α)
  | unknown (port : α)

/-- `none` stands for a call that has not come to an end. -/
abbrev Outcome (α : Type) : Type := Option (Except (PortError α) (List α))

def visitAll (visit : List α → α → Outcome α) : List α → List α → Outcome α
  | resolved, [] => some (.ok resolved)
  | resolved, port :: ports =>
    match visit resolved port with
    | some (.ok resolved) => visitAll visit resolved ports
    | outcome => outcome

/-- What is `seen` is what is in `resolved`. -/
def visit (deps : List (α × List α)) : Nat → List α → List α → α → Outcome α
  | 0, _, _, _ => none
  | fuel+1, visiting, resolved, port =>
    if port ∈ resolved then some (.ok resolved)
    else if port ∈ visiting then some (.error (.cyclic port))
    else
      match deps.lookup port with
      | none => some (.error (.unknown port))
      | some dependencies =>
        match visitAll (visit deps fuel (port :: visiting)) resolved dependencies with
        | some (.ok resolved) => some (.ok (resolved ++ [port]))
        | outcome => outcome

def resolvePorts (deps : List (α × List α)) (fuel : Nat) (requested : List α) : Outcome α :=
  visitAll (visit deps fuel []) [] requested

variable (deps : List (α × List α))

def DependsOn (p q : α) : Prop := ∃ ds, deps.lookup p = some ds ∧ q ∈ ds

/-- Known and on no cycle. -/
def Buildable (p : α) : Prop := (∃ ds, deps.lookup p = some ds) ∧ ¬TransGen (DependsOn deps) p p

/-- Every port comes once, and after what it depends on. -/
def Ordered (order : List α) : Prop :=
  order.Nodup ∧ ∀ before p after, order = before ++ p :: after →
    (∃ ds, deps.lookup p = some ds) ∧ ∀ q, DependsOn deps p q → q ∈ before

/-- What visiting `ports` comes to while `visiting` are begun. -/
def Meets (visiting resolved ports : List α) : Outcome α → Prop
  | none => False
  | some (.error _) => ∃ p ∈ ports, ∃ q, ReflTransGen (DependsOn deps) p q ∧ ¬Buildable deps q
  | some (.ok order) => Ordered deps order ∧ resolved ⊆ order ∧ ports ⊆ order ∧ (∀ v ∈ visiting, v ∉ order) ∧
      ∀ q ∈ order, q ∈ resolved ∨ ∃ p ∈ ports, ReflTransGen (DependsOn deps) p q

variable {deps} {visiting resolved ports : List α}

theorem visitAll_meets {f : List α → α → Outcome α}
    (hf : ∀ r, Ordered deps r → (∀ v ∈ visiting, v ∉ r) → ∀ p ∈ ports, Meets deps visiting r [p] (f r p))
    (hr : Ordered deps resolved) (hv : ∀ v ∈ visiting, v ∉ resolved) :
    Meets deps visiting resolved ports (visitAll f resolved ports) := by
  induction ports generalizing resolved with
  | nil => exact ⟨hr,Subset.refl _,nil_subset _,hv,fun q hq => Or.inl hq⟩
  | cons p ps ih =>
    have hone := hf resolved hr hv p mem_cons_self
    rw [visitAll]
    rcases hp : f resolved p with _ | _ | order <;> rw [hp] at hone
    · exact hone
    · obtain ⟨q,hq,hbad⟩ := hone
      exact ⟨q,mem_singleton.mp hq ▸ mem_cons_self,hbad⟩
    obtain ⟨ho,hsub,hin,hv',hnew⟩ := hone
    have hrest := ih (fun r hr hv q hq => hf r hr hv q (mem_cons_of_mem p hq)) ho hv'
    show Meets deps visiting resolved (p :: ps) (visitAll f order ps)
    rcases hps : visitAll f order ps with _ | _ | order' <;> rw [hps] at hrest
    · exact hrest
    · obtain ⟨q,hq,hbad⟩ := hrest
      exact ⟨q,mem_cons_of_mem p hq,hbad⟩
    obtain ⟨ho',hsub',hin',hv'',hnew'⟩ := hrest
    refine ⟨ho',fun q hq => hsub' (hsub hq),cons_subset.mpr ⟨hsub' (hin mem_cons_self),hin'⟩,hv'',fun q hq => ?_⟩
    rcases hnew' q hq with hq | ⟨d,hd,hreach⟩
    · exact (hnew q hq).imp_right fun ⟨d,hd,hreach⟩ => ⟨d,mem_singleton.mp hd ▸ mem_cons_self,hreach⟩
    · exact Or.inr ⟨d,mem_cons_of_mem p hd,hreach⟩

theorem Ordered.concat {port : α} {ds : List α} (h : Ordered deps resolved) (hnew : port ∉ resolved)
    (hds : deps.lookup port = some ds) (hin : ds ⊆ resolved) : Ordered deps (resolved ++ [port]) := by
  refine ⟨concat_eq_append ▸ Nodup.concat hnew h.1,fun before p after heq => ?_⟩
  rcases eq_nil_or_concat after with rfl | ⟨after,x,rfl⟩
  · obtain ⟨rfl,hp⟩ := append_inj' heq rfl
    obtain rfl := (cons.inj hp).1
    refine ⟨⟨ds,hds⟩,fun q ⟨ds',hds',hq⟩ => hin ?_⟩
    rwa [Option.some.inj (hds.symm.trans hds')]
  · rw [concat_eq_append,← cons_append,← append_assoc] at heq
    exact h.2 before p after (append_inj' heq rfl).1

theorem mem_keys {p : α} {ds : List α} (h : deps.lookup p = some ds) : p ∈ deps.map Prod.fst := by
  obtain ⟨xs,ys,rfl,-⟩ := lookup_eq_some_iff.mp h
  simp

theorem visit_meets {fuel : Nat} {port : α} (hfuel : deps.length < fuel + visiting.length) (hnodup : visiting.Nodup)
    (hkeys : visiting ⊆ deps.map Prod.fst) (hpath : ∀ v ∈ visiting, TransGen (DependsOn deps) v port)
    (hr : Ordered deps resolved) (hv : ∀ v ∈ visiting, v ∉ resolved) :
    Meets deps visiting resolved [port] (visit deps fuel visiting resolved port) := by
  induction fuel generalizing visiting resolved port with
  | zero =>
    have hle := (hnodup.subperm hkeys).length_le
    rw [length_map] at hle
    omega
  | succ fuel ih =>
    rw [visit]
    split
    · rename_i hin
      exact ⟨hr,Subset.refl _,by simpa using hin,hv,fun q hq => Or.inl hq⟩
    rename_i hnew
    split
    · rename_i hcycle
      exact ⟨port,mem_cons_self,port,.refl,fun hgood => hgood.2 (hpath port hcycle)⟩
    rename_i hfree
    cases hds : deps.lookup port with
    | none => exact ⟨port,mem_cons_self,port,.refl,fun hgood => by simp [Buildable,hds] at hgood⟩
    | some ds =>
      have hall : Meets deps (port :: visiting) resolved ds
        (visitAll (visit deps fuel (port :: visiting)) resolved ds) :=
        visitAll_meets (fun r hr hv d hd => by
          have hdep : DependsOn deps port d := ⟨ds,hds,hd⟩
          refine ih (by rw [length_cons]; omega) (nodup_cons.mpr ⟨hfree,hnodup⟩)
            (cons_subset.mpr ⟨mem_keys hds,hkeys⟩) ?_ hr hv
          exact forall_mem_cons.mpr ⟨.single hdep,fun v hvis => (hpath v hvis).tail hdep⟩)
          hr (forall_mem_cons.mpr ⟨hnew,hv⟩)
      dsimp only
      rcases hout : visitAll (visit deps fuel (port :: visiting)) resolved ds with _ | _ | order <;> rw [hout] at hall
      · exact hall
      · obtain ⟨d,hd,q,hreach,hbad⟩ := hall
        exact ⟨port,mem_cons_self,q,.head ⟨ds,hds,hd⟩ hreach,hbad⟩
      obtain ⟨ho,hsub,hin,hv',hq⟩ := hall
      obtain ⟨hport,hv'⟩ := forall_mem_cons.mp hv'
      refine ⟨ho.concat hport hds hin,fun q hq => mem_append_left _ (hsub hq),by simp,fun v hvis => ?_,fun q hmem => ?_⟩
      · have hne : v ≠ port := fun h => hfree (h ▸ hvis)
        simp [hv' v hvis,hne]
      rcases mem_append.mp hmem with hmem | hmem
      · exact (hq q hmem).imp_right fun ⟨d,hd,hreach⟩ => ⟨port,mem_cons_self,.head ⟨ds,hds,hd⟩ hreach⟩
      · exact Or.inr ⟨port,mem_cons_self,mem_singleton.mp hmem ▸ .refl⟩

section
variable {order : List α} {p : α} (h : Ordered deps order)
include h

theorem Ordered.before {before after : List α} {q : α} (heq : order = before ++ p :: after)
    (hpq : TransGen (DependsOn deps) p q) : q ∈ before := by
  induction hpq with
  | single hdep => exact (h.2 before p after heq).2 _ hdep
  | tail _ hdep ih =>
    obtain ⟨xs,ys,rfl⟩ := append_of_mem ih
    have := (h.2 xs _ (ys ++ p :: after) (by simp [heq])).2 _ hdep
    exact mem_append_left _ this

theorem Ordered.closed {q : α} (hp : p ∈ order) (hpq : ReflTransGen (DependsOn deps) p q) : q ∈ order := by
  rcases reflTransGen_iff_eq_or_transGen.mp hpq with rfl | hpq
  · exact hp
  obtain ⟨before,after,heq⟩ := append_of_mem hp
  rw [heq]
  exact mem_append_left _ (h.before heq hpq)

theorem Ordered.buildable (hp : p ∈ order) : Buildable deps p := by
  obtain ⟨before,after,heq⟩ := append_of_mem hp
  refine ⟨(h.2 before p after heq).1,fun hcycle => ?_⟩
  have hnodup := h.1
  rw [heq] at hnodup
  exact (nodup_append.mp hnodup).2.2 p (h.before heq hcycle) p mem_cons_self rfl

end

/-- The resolver gives just what the requests need, in an order to build it, or else an error. -/
theorem ports_resolved (deps : List (α × List α)) (requested : List α) (fuel : Nat) (hfuel : deps.length < fuel) :
    ((∀ r ∈ requested, ∀ p, ReflTransGen (DependsOn deps) r p → Buildable deps p) →
      ∃ order, resolvePorts deps fuel requested = some (.ok order) ∧ order.Nodup ∧
        (∀ p, p ∈ order ↔ ∃ r ∈ requested, ReflTransGen (DependsOn deps) r p) ∧
        ∀ before p after, order = before ++ p :: after → ∀ q, DependsOn deps p q → q ∈ before) ∧
    ((∃ r ∈ requested, ∃ p, ReflTransGen (DependsOn deps) r p ∧ ¬Buildable deps p) →
      ∃ error, resolvePorts deps fuel requested = some (.error error)) := by
  have hempty : Ordered deps [] := ⟨nodup_nil,fun before p after h => by simp at h⟩
  have hmeets : Meets deps [] [] requested (resolvePorts deps fuel requested) :=
    visitAll_meets (fun r hr hv p _ => visit_meets (by simpa using hfuel) nodup_nil (nil_subset _)
      (forall_mem_nil _) hr hv) hempty (forall_mem_nil _)
  rcases hout : resolvePorts deps fuel requested with _ | error | order <;> rw [hout] at hmeets
  · exact hmeets.elim
  · obtain ⟨r,hr,p,hreach,hbad⟩ := hmeets
    exact ⟨fun hall => absurd (hall r hr p hreach) hbad,fun _ => ⟨error,rfl⟩⟩
  obtain ⟨ho,-,hin,-,hq⟩ := hmeets
  refine ⟨fun _ => ⟨order,rfl,ho.1,fun p => ⟨fun hp => (hq p hp).resolve_left not_mem_nil,fun ⟨r,hr,hreach⟩ => ?_⟩,
    fun before p after heq => (ho.2 before p after heq).2⟩,fun ⟨r,hr,p,hreach,hbad⟩ => ?_⟩
  · exact ho.closed (hin hr) hreach
  · exact absurd (ho.buildable (ho.closed (hin hr) hreach)) hbad

theorem ports_resolved_chain : resolvePorts [(1,[2]),(2,[])] 3 [1,2] = some (.ok [2,1]) ∧
    ∃ error, resolvePorts [(1,[2]),(2,[1])] 3 [1] = some (.error error) := by
  refine ⟨rfl,(ports_resolved [(1,[2]),(2,[1])] [1] 3 (by decide)).2 ⟨1,mem_cons_self,1,.refl,?_⟩⟩
  exact fun h => h.2 (.tail (.single ⟨[2],rfl,mem_cons_self⟩) ⟨[1],rfl,mem_cons_self⟩)

end Rucux.Tools
