import Mathlib.Data.List.Induction
import Mathlib.Data.List.Nodup
import Mathlib.Data.List.Perm.Basic

/-! Trees of tables in a store. An entry may lead to another table; a path is a list of indices, and a store
is a forest if no table is at the end of two paths. -/

namespace Rucux.Lib.Radix
open Function Option List
variable {τ ι ε β : Type} (child : ε → Option τ)

def walk (m : τ → ι → ε) : τ → List ι → Option τ
  | a,[] => some a
  | a,i :: path => (child (m a i)).bind fun b => walk m b path

variable {child} {m : τ → ι → ε} {a b c r : τ} {i j : ι} {e : ε} {p q : List ι}

@[simp] theorem walk_nil : walk child m a [] = some a := rfl

theorem walk_append : walk child m a (p ++ q) = (walk child m a p).bind fun b => walk child m b q := by
  induction p generalizing a with
  | nil => rfl
  | cons i p ih =>
    simp only [cons_append,walk]
    cases child (m a i) with
    | none => rfl
    | some b => exact ih

theorem walk_concat : walk child m a (p ++ [i]) = (walk child m a p).bind fun b => child (m b i) := by
  rw [walk_append]
  congr 1
  funext b
  simp [walk]

theorem walk_concat_some :
    walk child m a (p ++ [i]) = some c ↔ ∃ b, walk child m a p = some b ∧ child (m b i) = some c := by
  rw [walk_concat,bind_eq_some_iff]

variable (child) in
/-- What `leaf` says of the tables `d` steps below `a`, which is at the end of `p`. -/
def harvest (m : τ → ι → ε) (indices : List ι) (leaf : List ι → τ → List β) : Nat → List ι → τ → List β
  | 0,p,a => leaf p a
  | d + 1,p,a => indices.flatMap fun i =>
      (child (m a i)).elim [] fun b => harvest m indices leaf d (p ++ [i]) b

variable (child) in
def below (m : τ → ι → ε) (indices : List ι) : Nat → τ → List τ
  | 0,a => [a]
  | d + 1,a => (indices.flatMap fun i => (child (m a i)).elim [] (below m indices d)) ++ [a]

variable {indices : List ι} {leaf : List ι → τ → List β} {d : Nat} {x : β}

theorem mem_child {f : τ → List β} : x ∈ (child e).elim [] f ↔ ∃ b, child e = some b ∧ x ∈ f b := by
  cases child e <;> simp

theorem mem_harvest : x ∈ harvest child m indices leaf d p a ↔
    ∃ q b, q.length = d ∧ (∀ i ∈ q, i ∈ indices) ∧ walk child m a q = some b ∧ x ∈ leaf (p ++ q) b := by
  induction d generalizing p a with
  | zero =>
    constructor
    · intro h
      exact ⟨[],a,rfl,by simp,rfl,by simpa [harvest] using h⟩
    rintro ⟨q,b,hq,-,hw,hx⟩
    obtain rfl := length_eq_zero_iff.mp hq
    cases hw
    simpa [harvest] using hx
  | succ d ih =>
    simp only [harvest,mem_flatMap]
    constructor
    · rintro ⟨i,hi,hx⟩
      obtain ⟨b,hc,hx⟩ := mem_child.mp hx
      obtain ⟨q,c,hq,hin,hw,hx⟩ := ih.mp hx
      refine ⟨i :: q,c,by simp [hq],?_,by simpa [walk,hc] using hw,by simpa using hx⟩
      exact forall_mem_cons.mpr ⟨hi,hin⟩
    rintro ⟨q,c,hq,hin,hw,hx⟩
    cases q with
    | nil => cases hq
    | cons i q =>
      obtain ⟨b,hb,hw⟩ := bind_eq_some_iff.mp hw
      refine ⟨i,hin i mem_cons_self,?_⟩
      rw [hb]
      refine ih.mpr ⟨q,c,by simpa using hq,fun j hj => hin j (mem_cons_of_mem _ hj),hw,?_⟩
      simpa using hx

theorem mem_below : c ∈ below child m indices d a ↔
    ∃ q, q.length ≤ d ∧ (∀ i ∈ q, i ∈ indices) ∧ walk child m a q = some c := by
  induction d generalizing a with
  | zero =>
    simp only [below,mem_singleton]
    constructor
    · rintro rfl
      exact ⟨[],Nat.le_refl _,by simp,rfl⟩
    rintro ⟨q,hq,-,hw⟩
    obtain rfl := length_eq_zero_iff.mp (Nat.le_zero.mp hq)
    cases hw
    rfl
  | succ d ih =>
    simp only [below,mem_append,mem_flatMap,mem_singleton]
    constructor
    · rintro (⟨i,hi,hx⟩ | rfl)
      · obtain ⟨b,hc,hx⟩ := mem_child.mp hx
        obtain ⟨q,hq,hin,hw⟩ := ih.mp hx
        refine ⟨i :: q,by simpa using hq,?_,by simpa [walk,hc] using hw⟩
        exact forall_mem_cons.mpr ⟨hi,hin⟩
      · exact ⟨[],Nat.zero_le _,by simp,rfl⟩
    rintro ⟨q,hq,hin,hw⟩
    cases q with
    | nil =>
      cases hw
      exact .inr rfl
    | cons i q =>
      obtain ⟨b,hb,hw⟩ := bind_eq_some_iff.mp hw
      refine .inl ⟨i,hin i mem_cons_self,?_⟩
      rw [hb]
      exact ih.mpr ⟨q,by simpa using hq,fun j hj => hin j (mem_cons_of_mem _ hj),hw⟩

theorem nodup_flatMap {α : Type} {l : List ι} {f : ι → List α} (hl : l.Nodup) (hf : ∀ i ∈ l, (f i).Nodup)
    (hd : ∀ i ∈ l, ∀ j ∈ l, ∀ x, x ∈ f i → x ∈ f j → i = j) : (l.flatMap f).Nodup := by
  rw [List.nodup_flatMap]
  refine ⟨hf,?_⟩
  refine hl.imp_of_mem fun {i j} hi hj hne => ?_
  exact fun x hx hx' => hne (hd i hi j hj x hx hx')

theorem below_nodup (hi : indices.Nodup)
    (h : ∀ p q b, p.length ≤ d → q.length ≤ d → (∀ i ∈ p, i ∈ indices) → (∀ i ∈ q, i ∈ indices) →
      walk child m a p = some b → walk child m a q = some b → p = q) :
    (below child m indices d a).Nodup := by
  induction d generalizing a with
  | zero => simp [below]
  | succ d ih =>
    have hcons : ∀ {i b q c}, i ∈ indices → child (m a i) = some b → (∀ j ∈ q, j ∈ indices) →
        walk child m b q = some c → (∀ j ∈ i :: q, j ∈ indices) ∧ walk child m a (i :: q) = some c := by
      intro i b q c hi hb hq hw
      refine ⟨?_,by simpa [walk,hb] using hw⟩
      exact forall_mem_cons.mpr ⟨hi,hq⟩
    -- a table below an entry is at the end of a path through that entry
    have hpath : ∀ i ∈ indices, ∀ c, c ∈ (child (m a i)).elim [] (below child m indices d) →
        ∃ q, q.length ≤ d ∧ (∀ j ∈ i :: q, j ∈ indices) ∧ walk child m a (i :: q) = some c := by
      intro i hi c hc
      obtain ⟨b,hb,hc⟩ := mem_child.mp hc
      obtain ⟨q,hq,hin,hw⟩ := mem_below.mp hc
      exact ⟨q,hq,hcons hi hb hin hw⟩
    simp only [below]
    refine List.Nodup.append (nodup_flatMap hi (fun i hin => ?_) fun i hin j hjn c hc hc' => ?_) (by simp) ?_
    · cases hb : child (m a i) with
      | none => simp
      | some b =>
        refine ih fun p q c hp hq hpi hqi hpw hqw => ?_
        have h₁ := hcons hin hb hpi hpw
        have h₂ := hcons hin hb hqi hqw
        have heq := h (i :: p) (i :: q) c (by simpa using hp) (by simpa using hq) h₁.1 h₂.1 h₁.2 h₂.2
        exact (cons.inj heq).2
    · obtain ⟨p,hp,hpi,hpw⟩ := hpath i hin c hc
      obtain ⟨q,hq,hqi,hqw⟩ := hpath j hjn c hc'
      have heq := h (i :: p) (j :: q) c (by simpa using hp) (by simpa using hq) hpi hqi hpw hqw
      exact (cons.inj heq).1
    intro c hc hca
    obtain rfl := mem_singleton.mp hca
    obtain ⟨i,hin,hc⟩ := mem_flatMap.mp hc
    obtain ⟨q,hq,hqi,hqw⟩ := hpath i hin c hc
    have heq := h (i :: q) [] c (by simpa using hq) (Nat.zero_le _) hqi (by simp) hqw rfl
    cases heq

theorem harvest_nodup (hi : indices.Nodup)
    (hleaf : ∀ q b, q.length = d → walk child m a q = some b → (leaf (p ++ q) b).Nodup)
    (hx : ∀ q q' b b' x, q.length = d → q'.length = d → (∀ i ∈ q, i ∈ indices) → (∀ i ∈ q', i ∈ indices) →
      x ∈ leaf (p ++ q) b → x ∈ leaf (p ++ q') b' → q = q') :
    (harvest child m indices leaf d p a).Nodup := by
  induction d generalizing p a with
  | zero => simpa [harvest] using hleaf [] a rfl rfl
  | succ d ih =>
    simp only [harvest]
    refine nodup_flatMap hi (fun i hin => ?_) fun i hin j hjn x h₁ h₂ => ?_
    · cases hb : child (m a i) with
      | none => simp
      | some b =>
        refine ih (fun q c hq hw => ?_) fun q q' c c' x hq hq' hqi hqi' h₁ h₂ => ?_
        · have hl := hleaf (i :: q) c (by simp [hq]) (by simpa [walk,hb] using hw)
          simpa using hl
        have heq := hx (i :: q) (i :: q') c c' x (by simp [hq]) (by simp [hq'])
          (by simpa using ⟨hin,hqi⟩) (by simpa using ⟨hin,hqi'⟩) (by simpa using h₁) (by simpa using h₂)
        exact (cons.inj heq).2
    obtain ⟨b,hb,h₁⟩ := mem_child.mp h₁
    obtain ⟨b',hb',h₂⟩ := mem_child.mp h₂
    obtain ⟨q,c,hq,hqi,-,h₁⟩ := mem_harvest.mp h₁
    obtain ⟨q',c',hq',hqi',-,h₂⟩ := mem_harvest.mp h₂
    have heq := hx (i :: q) (j :: q') c c' x (by simp [hq]) (by simp [hq'])
      (by simpa using ⟨hin,hqi⟩) (by simpa using ⟨hjn,hqi'⟩) (by simpa using h₁) (by simpa using h₂)
    exact (cons.inj heq).1

/-- Paths that are `ok` from tables that are `roots` end at different tables. -/
structure Forest (child : ε → Option τ) (m : τ → ι → ε) (roots : τ → Prop) (ok : List ι → Prop) :
    Prop where
  init : ∀ p i, ok (p ++ [i]) → ok p
  unique : ∀ r r' p q a, roots r → roots r' → ok p → ok q → walk child m r p = some a →
    walk child m r' q = some a → r = r' ∧ p = q

variable {roots : τ → Prop} {ok : List ι → Prop}

theorem Forest.walk_frame (h : Forest child m roots ok) {m' : τ → ι → ε}
    (hm : ∀ r p b, roots r → ok p → walk child m r p = some b → m' b = m b) (hr : roots r) (hp : ok p) :
    walk child m' r p = walk child m r p := by
  induction p using reverseRecOn with
  | nil => rfl
  | append_singleton p i ih =>
    have hp' := h.init p i hp
    rw [walk_concat,walk_concat,ih hp']
    cases hb : walk child m r p with
    | none => rfl
    | some b =>
      simp only [bind_some]
      rw [hm r p b hr hp' hb]

/-- A new table `b`, whose entries lead nowhere, under an entry of `a` that led nowhere. -/
structure Attaches (child : ε → Option τ) (m : τ → ι → ε) (roots : τ → Prop) (ok : List ι → Prop)
    (r : τ) (p : List ι) (i : ι) (a b : τ) (e : ε) (blank : ι → ε) : Prop where
  root : roots r
  path : ok p
  reached : walk child m r p = some a
  vacant : child (m a i) = none
  leads : child e = some b
  blank : ∀ j, child (blank j) = none
  fresh : ∀ r' q, roots r' → ok q → walk child m r' q ≠ some b

variable {blank : ι → ε}

theorem Attaches.ne (ht : Attaches child m roots ok r p i a b e blank) : a ≠ b := by
  rintro rfl
  exact ht.fresh r p ht.root ht.path ht.reached

section Writes
variable [DecidableEq τ] [DecidableEq ι]

def write (m : τ → ι → ε) (a : τ) (i : ι) (e : ε) : τ → ι → ε :=
  update m a (update (m a) i e)

@[simp] theorem write_self : write m a i e a i = e := by
  simp [write]

theorem write_of_ne (h : b ≠ a) : write m a i e b j = m b j := by
  simp [write,h]

theorem write_of_index_ne (h : j ≠ i) : write m a i e b j = m b j := by
  by_cases hb : b = a
  · subst hb
    simp [write,h]
  · exact write_of_ne hb

section
variable (h : Forest child m roots ok) (hr : roots r) (hp : ok p) (ha : walk child m r p = some a)
  (hfull : ∀ i, ¬ ok (p ++ [i]))
include h hr hp ha hfull

theorem Forest.walk_write {r' : τ} (hr' : roots r') (hq : ok q) :
    walk child (write m a i e) r' q = walk child m r' q := by
  induction q using reverseRecOn with
  | nil => rfl
  | append_singleton q j ih =>
    have hq' := h.init q j hq
    rw [walk_concat,walk_concat,ih hq']
    cases hb : walk child m r' q with
    | none => rfl
    | some b =>
      have hne : b ≠ a := by
        rintro rfl
        obtain ⟨-,rfl⟩ := h.unique r r' p q b hr hr' hp hq' ha hb
        exact hfull j hq
      simp [write_of_ne hne]

theorem Forest.write : Forest child (write m a i e) roots ok where
  init := h.init
  unique := fun r₁ r₂ p₁ p₂ c hr₁ hr₂ hp₁ hp₂ h₁ h₂ => by
    rw [h.walk_write hr hp ha hfull hr₁ hp₁] at h₁
    rw [h.walk_write hr hp ha hfull hr₂ hp₂] at h₂
    exact h.unique r₁ r₂ p₁ p₂ c hr₁ hr₂ hp₁ hp₂ h₁ h₂

end

def attach (m : τ → ι → ε) (a b : τ) (i : ι) (e : ε) (blank : ι → ε) : τ → ι → ε :=
  Radix.write (update m b blank) a i e

theorem Attaches.entry_new (ht : Attaches child m roots ok r p i a b e blank) :
    attach m a b i e blank b j = blank j := by
  rw [attach,write_of_ne (Ne.symm ht.ne),update_self]

theorem attach_of_ne (hc : c ≠ b) (hne : c = a → j ≠ i) : attach m a b i e blank c j = m c j := by
  unfold attach
  by_cases hca : c = a
  · rw [write_of_index_ne (hne hca),update_of_ne hc]
  · rw [write_of_ne hca,update_of_ne hc]

theorem attach_self : attach m a b i e blank a i = e := by
  simp [attach]

section
variable (h : Forest child m roots ok) (ht : Attaches child m roots ok r p i a b e blank)
include h ht

theorem Attaches.walk_old {r' : τ} (hr' : roots r') (hq : ok q) (hc : walk child m r' q = some c) :
    walk child (attach m a b i e blank) r' q = some c := by
  induction q using reverseRecOn generalizing c with
  | nil => exact hc
  | append_singleton q j ih =>
    have hq' := h.init q j hq
    obtain ⟨d,hd,hdc⟩ := walk_concat_some.mp hc
    refine walk_concat_some.mpr ⟨d,ih hq' hd,?_⟩
    have hdb : d ≠ b := by
      rintro rfl
      exact ht.fresh r' q hr' hq' hd
    have hne : d = a → j ≠ i := by
      rintro rfl rfl
      rw [ht.vacant] at hdc
      cases hdc
    rwa [attach_of_ne hdb hne]

theorem Attaches.walk_new {r' : τ} (hr' : roots r') (hq : ok q)
    (hc : walk child (attach m a b i e blank) r' q = some c) :
    walk child m r' q = some c ∨ r' = r ∧ q = p ++ [i] ∧ c = b := by
  induction q using reverseRecOn generalizing c with
  | nil => exact .inl hc
  | append_singleton q j ih =>
    have hq' := h.init q j hq
    obtain ⟨d,hd,hdc⟩ := walk_concat_some.mp hc
    rcases ih hq' hd with hold | ⟨-,-,rfl⟩
    · by_cases hda : d = a ∧ j = i
      · obtain ⟨rfl,rfl⟩ := hda
        obtain ⟨rfl,rfl⟩ := h.unique r' r q p d hr' ht.root hq' ht.path hold ht.reached
        rw [attach_self,ht.leads] at hdc
        exact .inr ⟨rfl,rfl,(some.inj hdc).symm⟩
      have hdb : d ≠ b := by
        rintro rfl
        exact ht.fresh r' q hr' hq' hold
      rw [attach_of_ne hdb fun hd' hj => hda ⟨hd',hj⟩] at hdc
      exact .inl (walk_concat_some.mpr ⟨d,hold,hdc⟩)
    · rw [ht.entry_new,ht.blank] at hdc
      cases hdc

theorem Attaches.forest : Forest child (attach m a b i e blank) roots ok where
  init := h.init
  unique := fun r₁ r₂ p₁ p₂ c hr₁ hr₂ hp₁ hp₂ h₁ h₂ => by
    rcases ht.walk_new h hr₁ hp₁ h₁ with h₁ | ⟨rfl,rfl,hc₁⟩
    · rcases ht.walk_new h hr₂ hp₂ h₂ with h₂ | ⟨-,-,hc₂⟩
      · exact h.unique r₁ r₂ p₁ p₂ c hr₁ hr₂ hp₁ hp₂ h₁ h₂
      rw [hc₂] at h₁
      exact absurd h₁ (ht.fresh r₁ p₁ hr₁ hp₁)
    rcases ht.walk_new h hr₂ hp₂ h₂ with h₂ | ⟨rfl,rfl,-⟩
    · rw [hc₁] at h₂
      exact absurd h₂ (ht.fresh r₂ p₂ hr₂ hp₂)
    · exact ⟨rfl,rfl⟩

end

end Writes
end Rucux.Lib.Radix
