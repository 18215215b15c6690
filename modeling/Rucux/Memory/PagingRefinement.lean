import Rucux.Memory.Paging

namespace Rucux.Memory
open Lib List Radix

def baseOf (p : List Nat) : Nat := p.foldl (fun b i => b * 512 + i) 0 * 2^(48 - 9 * p.length)

theorem baseOf_concat {p : List Nat} (i : Nat) {d : Nat} (h : p.length + d = 3) :
    baseOf (p ++ [i]) = baseOf p + i * 2^(12 + 9 * d) := by
  have h₁ : 48 - 9 * (p ++ [i]).length = 12 + 9 * d := by
    simp only [length_append,length_singleton]
    omega
  have h₂ : 48 - 9 * p.length = 9 + (12 + 9 * d) := by omega
  rw [baseOf,baseOf,h₁,h₂,foldl_append,Nat.pow_add 2 9]
  simp only [foldl_cons,foldl_nil,Nat.add_mul,Nat.mul_assoc]

theorem baseOf_three (x y z : Nat) : baseOf [x,y,z] = ((x * 512 + y) * 512 + z) * 2^21 := by
  simp [baseOf]

theorem page_of_path {p : List Nat} {i : Nat} (hlen : p.length = 3) (hp : PathOk p) (hi : i < 512) :
    UserPage (baseOf p + i * 4096) ∧ pathOf (baseOf p + i * 4096) = p ∧ ptIndex (baseOf p + i * 4096) = i := by
  obtain ⟨x,y,z,rfl⟩ := length_eq_three.mp hlen
  obtain ⟨-,hlt,hhead⟩ := hp
  have hx := hlt x (by simp)
  have hy := hlt y (by simp)
  have hz := hlt z (by simp)
  have hx' := hhead x (by simp)
  rw [baseOf_three,userPage_iff]
  simp only [pathOf,pml4Index,pdptIndex,pdIndex,ptIndex,List.cons.injEq,and_true]
  omega

theorem path_of_page {v : Nat} (hv : UserPage v) : v = baseOf (pathOf v) + ptIndex v * 4096 := by
  rw [userPage_iff] at hv
  simp only [pathOf,baseOf_three,pml4Index,pdptIndex,pdIndex,ptIndex]
  omega

namespace Paging
variable {s : Paging} {roots : BitVec 64 → Prop} {r a b : BitVec 64} {p q : List Nat} {i : Nat} {v : Nat}
  {owns : Nat → Bool}

def ownedPages (s : Paging) (owns : Nat → Bool) (p : List Nat) (a : BitVec 64) : List (Nat × BitVec 64) :=
  (range 512).flatMap fun i => (entryTable (s.tables a i)).elim [] fun child =>
    if owns (baseOf p + i * 4096) then [(baseOf p + i * 4096,child)] else []

abbrev ownedBelow (s : Paging) (owns : Nat → Bool) (d : Nat) (p : List Nat) (a : BitVec 64) :
    List (Nat × BitVec 64) :=
  harvest entryTable s.tables (range 512) (s.ownedPages owns) d p a

abbrev tablesBelow (s : Paging) (d : Nat) (a : BitVec 64) : List (BitVec 64) :=
  below entryTable s.tables (range 512) d a

theorem discardPrivateTable_perm (s : Paging) (owns : Nat → Bool) {d : Nat} (h : p.length + d = 3) :
    s.discardPrivateTable owns (d + 1) a (baseOf p) ~
      (s.ownedBelow owns d p a).map Prod.snd ++ s.tablesBelow d a := by
  induction d generalizing p a with
  | zero =>
    rw [discardPrivateTable]
    simp only [ownedBelow,harvest,ownedPages,tablesBelow,below,map_flatMap]
    refine Perm.append_right _ (Perm.of_eq ?_)
    congr 1
    funext i
    cases entryTable (s.tables a i) with
    | none => rfl
    | some child =>
      have hpow : 2^(12 + 9 * 0) = 4096 := rfl
      simp only [Option.elim_some,if_true,hpow]
      split <;> rfl
  | succ d ih =>
    rw [discardPrivateTable]
    simp only [ownedBelow,harvest,tablesBelow,below,map_flatMap,← append_assoc]
    refine Perm.append_right _ (Perm.trans ?_ (flatMap_append_perm _ _ _).symm)
    refine Perm.flatMap_left _ fun i _ => ?_
    cases entryTable (s.tables a i) with
    | none => exact Perm.refl _
    | some child =>
      simp only [Option.elim_some,Nat.add_eq_zero_iff,Nat.one_ne_zero,and_false,if_false]
      rw [← baseOf_concat i h]
      exact ih (by simp only [length_append,length_singleton]; omega)

def ownedOf (s : Paging) (owns : Nat → Bool) (root : BitVec 64) : List (Nat × BitVec 64) :=
  (range' 1 255).flatMap fun i =>
    (entryTable (s.tables root i)).elim [] fun child => s.ownedBelow owns 2 [i] child

def tablesOf (s : Paging) (root : BitVec 64) : List (BitVec 64) :=
  (range' 1 255).flatMap fun i => (entryTable (s.tables root i)).elim [] (s.tablesBelow 2)

theorem discarded_perm (s : Paging) (owns : Nat → Bool) (root : BitVec 64) :
    s.discarded owns root ~ (s.ownedOf owns root).map Prod.snd ++ s.tablesOf root ++ [root] := by
  simp only [discarded,ownedOf,tablesOf,map_flatMap]
  refine Perm.append_right _ (Perm.trans ?_ (flatMap_append_perm _ _ _).symm)
  refine Perm.flatMap_left _ fun i _ => ?_
  cases entryTable (s.tables root i) with
  | none => exact Perm.refl _
  | some child =>
    simp only [Option.elim_some]
    have hbase : i * 2^39 = baseOf [i] := by simp [baseOf]
    rw [hbase]
    exact discardPrivateTable_perm s owns rfl

theorem mem_slots : i ∈ range' 1 255 ↔ 1 ≤ i ∧ i < 256 := by
  rw [mem_range'_1]

theorem pathOk_cons (hi : 1 ≤ i ∧ i < 256) (hlen : q.length ≤ 2) (hq : ∀ j ∈ q, j ∈ range 512) :
    PathOk (i :: q) := by
  refine ⟨Nat.succ_le_succ hlen,?_,by simpa using hi⟩
  intro j hj
  rcases mem_cons.mp hj with rfl | hj
  · omega
  · exact mem_range.mp (hq j hj)

theorem walk_cons (hb : entryTable (s.tables r i) = some b) : s.walk r (i :: q) = s.walk b q := by
  simp [Paging.walk,Radix.walk,hb]

theorem mem_tablesOf : a ∈ s.tablesOf r ↔ ∃ q, PathOk q ∧ q ≠ [] ∧ s.walk r q = some a := by
  simp only [tablesOf,mem_flatMap,mem_slots]
  constructor
  · rintro ⟨i,hi,ha⟩
    obtain ⟨b,hb,ha⟩ := Radix.mem_child.mp ha
    obtain ⟨q,hlen,hq,hw⟩ := Radix.mem_below.mp ha
    exact ⟨i :: q,pathOk_cons hi hlen hq,by simp,by rw [walk_cons hb]; exact hw⟩
  rintro ⟨q,hq,hne,hw⟩
  cases q with
  | nil => exact absurd rfl hne
  | cons i q =>
    obtain ⟨hlen,hlt,hhead⟩ := hq
    refine ⟨i,hhead i rfl,?_⟩
    cases hb : entryTable (s.tables r i) with
    | none =>
      simp [Paging.walk,Radix.walk,hb] at hw
    | some b =>
      rw [walk_cons hb] at hw
      refine Radix.mem_below.mpr ⟨q,Nat.le_of_succ_le_succ hlen,fun j hj => ?_,hw⟩
      exact mem_range.mpr (hlt j (mem_cons_of_mem _ hj))

theorem Sound.tablesOf_nodup (h : s.Sound roots) (hr : roots r) : (s.tablesOf r).Nodup ∧ r ∉ s.tablesOf r := by
  have hunique : ∀ p q a, PathOk p → PathOk q → s.walk r p = some a → s.walk r q = some a → p = q :=
    fun p q a hp hq hpw hqw => (h.forest.unique r r p q a hr hr hp hq hpw hqw).2
  refine ⟨?_,fun hin => ?_⟩
  · refine nodup_flatMap (nodup_range') (fun i hi => ?_) fun i hi j hj a ha ha' => ?_
    · cases hb : entryTable (s.tables r i) with
      | none => simp
      | some b =>
        refine below_nodup nodup_range fun p q c hp hq hpi hqi hpw hqw => ?_
        have heq := hunique (i :: p) (i :: q) c (pathOk_cons (mem_slots.mp hi) hp hpi)
          (pathOk_cons (mem_slots.mp hi) hq hqi) (by rw [walk_cons hb]; exact hpw)
          (by rw [walk_cons hb]; exact hqw)
        exact (List.cons.inj heq).2
    obtain ⟨b,hb,ha⟩ := mem_child.mp ha
    obtain ⟨b',hb',ha'⟩ := mem_child.mp ha'
    obtain ⟨p,hp,hpi,hpw⟩ := mem_below.mp ha
    obtain ⟨q,hq,hqi,hqw⟩ := mem_below.mp ha'
    have heq := hunique (i :: p) (j :: q) a (pathOk_cons (mem_slots.mp hi) hp hpi)
      (pathOk_cons (mem_slots.mp hj) hq hqi) (by rw [walk_cons hb]; exact hpw)
      (by rw [walk_cons hb']; exact hqw)
    exact (List.cons.inj heq).1
  · obtain ⟨q,hq,hne,hw⟩ := mem_tablesOf.mp hin
    exact hne (hunique q [] r hq pathOk_nil hw rfl)

theorem entryTable_some {e : BitVec 64} : entryTable e = some b ↔ e &&& pagePresent ≠ 0 ∧ e &&& frameMask = b := by
  unfold entryTable
  split
  · rename_i h
    simp only [Option.some.injEq]
    exact ⟨fun hb => ⟨h,hb⟩,fun hb => hb.2⟩
  · rename_i h
    exact ⟨nofun,fun hb => absurd hb.1 h⟩

theorem mem_ownedPages {x : Nat × BitVec 64} : x ∈ s.ownedPages owns p a ↔
    ∃ i, i < 512 ∧ x.1 = baseOf p + i * 4096 ∧ owns x.1 = true ∧ entryTable (s.tables a i) = some x.2 := by
  simp only [ownedPages,mem_flatMap,mem_range]
  constructor
  · rintro ⟨i,hi,hx⟩
    obtain ⟨b,hb,hx⟩ := mem_child.mp hx
    split at hx
    · rename_i ho
      obtain rfl := mem_singleton.mp hx
      exact ⟨i,hi,rfl,ho,hb⟩
    · cases hx
  rintro ⟨i,hi,hv,ho,hb⟩
  refine ⟨i,hi,?_⟩
  rw [hv] at ho
  rw [hb]
  simp only [Option.elim_some,if_pos ho,mem_singleton]
  exact Prod.ext hv rfl

theorem mem_ownedOf {x : BitVec 64} : (v,x) ∈ s.ownedOf owns r ↔
    UserPage v ∧ owns v = true ∧ s.leafOf r v &&& pagePresent ≠ 0 ∧ s.leafOf r v &&& frameMask = x := by
  simp only [ownedOf,mem_flatMap,mem_slots]
  constructor
  · rintro ⟨i,hi,hx⟩
    obtain ⟨b,hb,hx⟩ := mem_child.mp hx
    obtain ⟨q,a,hlen,hq,hw,hx⟩ := mem_harvest.mp hx
    obtain ⟨j,hj,hv,ho,he⟩ := mem_ownedPages.mp hx
    have hpath : PathOk ([i] ++ q) := pathOk_cons (q := q) hi (by omega) hq
    obtain ⟨hpage,hpathOf,hindex⟩ := page_of_path (by simp [hlen]) hpath hj
    simp only at hv ho he
    rw [← hv] at hpage hpathOf hindex
    have hwalk : s.walk r (pathOf v) = some a := by
      rw [hpathOf]
      exact (walk_cons hb).trans hw
    have hleaf : s.leafOf r v = s.tables a j := by
      rw [leafOf_some hwalk,hindex]
    rw [hleaf]
    exact ⟨hpage,ho,entryTable_some.mp he⟩
  rintro ⟨hpage,ho,he⟩
  have hpath := pathOk_pathOf hpage
  have hentry := entryTable_some.mpr he
  cases hw : s.walk r (pathOf v) with
  | none =>
    rw [leafOf_none hw,entryTable_zero] at hentry
    cases hentry
  | some a =>
    rw [leafOf_some hw] at hentry
    refine ⟨pml4Index v,hpath.2.2 _ rfl,?_⟩
    cases hb : entryTable (s.tables r (pml4Index v)) with
    | none => simp [Paging.walk,Radix.walk,pathOf,hb] at hw
    | some b =>
      rw [Option.elim_some]
      refine mem_harvest.mpr ⟨[pdptIndex v,pdIndex v],a,rfl,fun j hj => ?_,?_,?_⟩
      · exact mem_range.mpr (hpath.2.1 j (mem_cons_of_mem _ hj))
      · rw [pathOf,walk_cons hb] at hw
        exact hw
      · have hindex : ptIndex v < 512 := Nat.mod_lt _ (by decide)
        exact mem_ownedPages.mpr ⟨ptIndex v,hindex,path_of_page hpage,ho,hentry⟩

theorem ownedPages_nodup (s : Paging) (owns : Nat → Bool) (p : List Nat) (a : BitVec 64) :
    (s.ownedPages owns p a).Nodup := by
  refine nodup_flatMap nodup_range (fun i _ => ?_) fun i hi j hj x hx hx' => ?_
  · cases entryTable (s.tables a i) with
    | none => simp
    | some b =>
      simp only [Option.elim_some]
      split <;> simp
  have hfst : ∀ k, x ∈ ((entryTable (s.tables a k)).elim [] fun child =>
      if owns (baseOf p + k * 4096) then [(baseOf p + k * 4096,child)] else []) →
      x.1 = baseOf p + k * 4096 := by
    intro k hk
    obtain ⟨b,hb,hk⟩ := mem_child.mp hk
    split at hk
    · rw [mem_singleton.mp hk]
    · cases hk
  have h₁ := hfst i hx
  have h₂ := hfst j hx'
  omega

theorem ownedOf_nodup (s : Paging) (owns : Nat → Bool) (r : BitVec 64) :
    ((s.ownedOf owns r).map Prod.fst).Nodup := by
  -- a page says on which path it is
  have hpath : ∀ {i q a x}, 1 ≤ i ∧ i < 256 → q.length = 2 → (∀ j ∈ q, j ∈ range 512) →
      x ∈ s.ownedPages owns ([i] ++ q) a → pathOf x.1 = [i] ++ q := by
    intro i q a x hi hlen hq hx
    obtain ⟨j,hj,hv,-,-⟩ := mem_ownedPages.mp hx
    rw [hv]
    exact (page_of_path (by simp [hlen]) (pathOk_cons hi (by omega) hq) hj).2.1
  have hnodup : (s.ownedOf owns r).Nodup := by
    refine nodup_flatMap (nodup_range') (fun i hi => ?_) fun i hi j hj x hx hx' => ?_
    · cases entryTable (s.tables r i) with
      | none => simp
      | some b =>
        rw [Option.elim_some]
        refine harvest_nodup nodup_range (fun q c _ _ => ownedPages_nodup s owns _ c) ?_
        intro q q' c c' x hq hq' hqi hqi' hx hx'
        have heq := (hpath (mem_slots.mp hi) hq hqi hx).symm.trans (hpath (mem_slots.mp hi) hq' hqi' hx')
        simpa using heq
    obtain ⟨b,hb,hx⟩ := mem_child.mp hx
    obtain ⟨b',hb',hx'⟩ := mem_child.mp hx'
    obtain ⟨q,c,hq,hqi,-,hx⟩ := mem_harvest.mp hx
    obtain ⟨q',c',hq',hqi',-,hx'⟩ := mem_harvest.mp hx'
    have heq := (hpath (mem_slots.mp hi) hq hqi hx).symm.trans (hpath (mem_slots.mp hj) hq' hqi' hx')
    exact (List.cons.inj heq).1
  refine hnodup.map_on fun x hx y hy hxy => ?_
  obtain ⟨v,e⟩ := x
  obtain ⟨v',e'⟩ := y
  simp only at hxy
  subst hxy
  have h₁ := (mem_ownedOf.mp hx).2.2.2
  have h₂ := (mem_ownedOf.mp hy).2.2.2
  rw [← h₁,← h₂]

/-- What is freed: for every page that is there and owned its frame, every table below the root, and
the root. -/
theorem Sound.discarded (h : s.Sound roots) (hr : roots r) (owns : Nat → Bool) :
    ∃ (pages : List Nat) (tables : List (BitVec 64)), s.discarded owns r ~
      pages.map (fun v => s.leafOf r v &&& frameMask) ++ tables ++ [r] ∧
      pages.Nodup ∧ (∀ v, v ∈ pages ↔ UserPage v ∧ owns v = true ∧ s.leafOf r v &&& pagePresent ≠ 0) ∧
      tables.Nodup ∧ r ∉ tables ∧ ∀ a, a ∈ tables ↔ ∃ q, PathOk q ∧ q ≠ [] ∧ s.walk r q = some a := by
  refine ⟨(s.ownedOf owns r).map Prod.fst,s.tablesOf r,?_,ownedOf_nodup s owns r,fun v => ?_,
    (h.tablesOf_nodup hr).1,(h.tablesOf_nodup hr).2,fun a => mem_tablesOf⟩
  · have hsnd : (s.ownedOf owns r).map Prod.snd =
        ((s.ownedOf owns r).map Prod.fst).map fun v => s.leafOf r v &&& frameMask := by
      rw [map_map]
      refine map_congr_left fun x hx => ?_
      obtain ⟨v,e⟩ := x
      exact (mem_ownedOf.mp hx).2.2.2.symm
    rw [← hsnd]
    exact discarded_perm s owns r
  simp only [mem_map,Prod.exists,exists_and_right,exists_eq_right]
  constructor
  · rintro ⟨x,hx⟩
    obtain ⟨h₁,h₂,h₃,-⟩ := mem_ownedOf.mp hx
    exact ⟨h₁,h₂,h₃⟩
  · rintro ⟨h₁,h₂,h₃⟩
    exact ⟨_,mem_ownedOf.mpr ⟨h₁,h₂,h₃,rfl⟩⟩

end Paging

open Option

namespace Paging
variable {s : Paging} {roots roots' : BitVec 64 → Prop} {r a b : BitVec 64} {p : List Nat} {v : Nat}

theorem Sound.mono (h : s.Sound roots) (hsub : ∀ r, roots' r → roots r) : s.Sound roots' where
  forest := ⟨h.forest.init,fun r r' p q a hr hr' => h.forest.unique r r' p q a (hsub r hr) (hsub r' hr')⟩
  flags := fun r p a i hr => h.flags r p a i (hsub r hr)
  slots := fun r hr => h.slots r (hsub r hr)
  aligned := fun r hr => h.aligned r (hsub r hr)

structure Creates (s s' : Paging) (roots : BitVec 64 → Prop) (a : BitVec 64) : Prop where
  sound : s'.Sound fun r => r = a ∨ roots r
  fresh : s'.Fresh fun r => r = a ∨ roots r
  leaf : ∀ r v, roots r → UserPage v → s'.leafOf r v = s.leafOf r v
  empty : ∀ p b, PathOk p → s'.walk a p = some b → p = [] ∧ b = a
  freed : s'.freed = s.freed
  kernelEntry : s'.kernelEntry = s.kernelEntry
  taken : s'.taken = a :: s.taken
  suffix : s'.script <:+ s.script

theorem Sound.create (h : s.Sound roots) (hf : s.Fresh roots) {rest : List (Option (BitVec 64))}
    (hs : s.script = some a :: rest) :
    ∃ s', s.createAddressSpace = (some a,s') ∧ Creates s s' roots a := by
  have hin : some a ∈ s.script := by rw [hs]; exact mem_cons_self
  have hnodup : (a :: rest.filterMap id).Nodup := by simpa [hs] using hf.nodup
  have haligned := hf.page a hin
  have hunused := hf.unused a hin
  refine ⟨_,by rw [createAddressSpace,allocPage,hs],?_⟩
  set s' : Paging := (({ s with script := rest, taken := a :: s.taken } : Paging).clearTable a).setEntry a 0
    s.kernelEntry with hs'
  have hother : ∀ b, b ≠ a → s'.tables b = s.tables b := by
    intro b hb
    funext j
    rw [hs']
    simp [Paging.setEntry,clearTable,Radix.write,hb]
  have hself : ∀ j, s'.tables a j = if j = 0 then s.kernelEntry else 0 := by
    intro j
    rw [hs']
    by_cases hj : j = 0
    · subst hj
      simp [Paging.setEntry]
    · simp [Paging.setEntry,clearTable,Radix.write,hj]
  have hwalk : ∀ r p, roots r → PathOk p → s'.walk r p = s.walk r p := fun r p hr hp =>
    h.forest.walk_frame (fun r' q b hr' hq hb => hother b fun hba => hunused r' q hr' hq (hba ▸ hb)) hr hp
  have hempty : ∀ p b, PathOk p → s'.walk a p = some b → p = [] ∧ b = a := by
    intro p b hp hb
    cases p with
    | nil =>
      cases hb
      exact ⟨rfl,rfl⟩
    | cons i q =>
      have hi := hp.2.2 i rfl
      have hzero : s'.tables a i = 0 := by rw [hself,if_neg (by omega)]
      have hnone : s'.walk a (i :: q) = none := by
        show (entryTable (s'.tables a i)).bind _ = none
        rw [hzero,entryTable_zero]
        rfl
      rw [hnone] at hb
      cases hb
  refine ⟨⟨⟨h.forest.init,?_⟩,?_,?_,?_⟩,⟨(nodup_cons.mp hnodup).2,fun x hx => ?_,?_⟩,fun r v hr hv => ?_,hempty,
    rfl,rfl,rfl,by rw [hs]; exact suffix_cons _ _⟩
  · rintro r r' p q b (rfl | hr) (rfl | hr') hp hq hb hb'
    · exact ⟨rfl,(hempty p b hp hb).1.trans (hempty q b hq hb').1.symm⟩
    · obtain ⟨rfl,rfl⟩ := hempty p b hp hb
      have hb'' := (hwalk r' q hr' hq).symm.trans hb'
      exact absurd hb'' (hunused r' q hr' hq)
    · obtain ⟨rfl,rfl⟩ := hempty q b hq hb'
      have hb'' := (hwalk r p hr hp).symm.trans hb
      exact absurd hb'' (hunused r p hr hp)
    · exact h.forest.unique r r' p q b hr hr' hp hq ((hwalk r p hr hp).symm.trans hb)
        ((hwalk r' q hr' hq).symm.trans hb')
  · rintro r p b i (rfl | hr) hp hb
    · obtain ⟨rfl,rfl⟩ := hempty p b (pathOk_init hp) hb
      have hi := hp.2.2 i (by simp)
      exact .inl (by rw [hself,if_neg (by omega)])
    rw [hwalk r p hr (pathOk_init hp)] at hb
    rw [hother b fun hba => hunused r p hr (pathOk_init hp) (hba ▸ hb)]
    exact h.flags r p b i hr hp hb
  · rintro r (rfl | hr)
    · exact ⟨(hself 0).trans (if_pos rfl),fun i hi => (hself i).trans (if_neg (by omega))⟩
    rw [hother r fun hra => hunused r [] hr pathOk_nil (hra ▸ rfl)]
    exact h.slots r hr
  · rintro r (rfl | hr)
    · exact haligned
    · exact h.aligned r hr
  · exact hf.page x (by rw [hs]; exact mem_cons_of_mem _ hx)
  · rintro x hx r p (rfl | hr) hp hb
    · obtain ⟨-,rfl⟩ := hempty p x hp hb
      exact (nodup_cons.mp hnodup).1 (mem_filterMap.mpr ⟨some x,hx,rfl⟩)
    · rw [hwalk r p hr hp] at hb
      exact hf.unused x (by rw [hs]; exact mem_cons_of_mem _ hx) r p hr hp hb
  have hp := pathOk_pathOf hv
  unfold leafOf
  rw [hwalk r _ hr hp]
  cases hb : s.walk r (pathOf v) with
  | none => rfl
  | some b =>
    simp only [elim_some]
    rw [hother b fun hba => hunused r _ hr hp (hba ▸ hb)]

theorem freed_foldl (xs : List (BitVec 64)) (s : Paging) :
    (xs.foldl freePage s).tables = s.tables ∧ (xs.foldl freePage s).kernelEntry = s.kernelEntry ∧
      (xs.foldl freePage s).freed = xs.reverse ++ s.freed := by
  induction xs generalizing s with
  | nil => exact ⟨rfl,rfl,rfl⟩
  | cons x xs ih =>
    obtain ⟨h₁,h₂,h₃⟩ := ih (s.freePage x)
    exact ⟨h₁,h₂,by rw [foldl_cons,h₃]; simp [freePage]⟩

end Paging

/-- The roots are those of `create_address_space` that were not discarded. -/
structure AddressSpaces where
  paging : Paging
  roots : List (BitVec 64)

namespace AddressSpaces

/-- A call by a processor whose page table is `root`. `pages` says what `alloc_page` returns to it;
`active` says whether some processor has the page table. -/
inductive Event where
  | create (pages : List (Option (BitVec 64)))
  | map (root : BitVec 64) (virt : Nat) (phys : BitVec 64) (flags : PageFlags)
      (pages : List (Option (BitVec 64)))
  | unmap (root : BitVec 64) (virt : Nat)
  | protect (root : BitVec 64) (virt : Nat) (flags : PageFlags)
  | discard (root : BitVec 64) (owns : Nat → Bool) (active : Bool)

def withPages (s : AddressSpaces) (pages : List (Option (BitVec 64))) : Paging :=
  { s.paging with script := pages }

def step (s : AddressSpaces) : Event → AddressSpaces
  | .create pages =>
    match (s.withPages pages).createAddressSpace with
    | (none,paging) => { s with paging := paging }
    | (some root,paging) => ⟨paging,root :: s.roots⟩
  | .map root virt phys flags pages =>
    if root ∈ s.roots then { s with paging := (s.withPages pages).map root virt phys flags } else s
  | .unmap root virt => if root ∈ s.roots then { s with paging := s.paging.unmap root virt } else s
  | .protect root virt flags =>
    if root ∈ s.roots then { s with paging := (s.paging.protect root virt flags).2 } else s
  | .discard root owns active =>
    if root ∈ s.roots && !active then
      ⟨s.paging.discardAddressSpace root owns active,s.roots.filter (· ≠ root)⟩
    else s

/-- `tables` is what is in memory, and `kernelEntry` slot 0 of the kernel's page table. -/
def init (tables : BitVec 64 → Nat → BitVec 64) (kernelEntry : BitVec 64) : AddressSpaces :=
  ⟨⟨tables,kernelEntry,[],[],[]⟩,[]⟩

def machine (tables : BitVec 64 → Nat → BitVec 64) (kernelEntry : BitVec 64) :
    Machine AddressSpaces Event := ⟨init tables kernelEntry,step⟩

/-- User pages are mapped, and `alloc_page` gives no page that is in use for a table. -/
def Valid (s : AddressSpaces) : Event → Prop
  | .create pages => (s.withPages pages).Fresh (· ∈ s.roots)
  | .map _ virt _ _ pages => UserPage virt ∧ (s.withPages pages).Fresh (· ∈ s.roots)
  | .unmap _ _ | .protect _ _ _ | .discard _ _ _ => True

abbrev Sound (s : AddressSpaces) : Prop := s.paging.Sound (· ∈ s.roots)

variable {s : AddressSpaces} {r : BitVec 64} {v : Nat}

theorem sound_withPages (h : s.Sound) (pages : List (Option (BitVec 64))) :
    (s.withPages pages).Sound (· ∈ s.roots) := Paging.Sound.of_tables h rfl rfl

theorem create_none {p : Paging} (h : ∀ a rest, p.script ≠ some a :: rest) :
    p.createAddressSpace.1 = none ∧ p.createAddressSpace.2.tables = p.tables ∧
      p.createAddressSpace.2.kernelEntry = p.kernelEntry := by
  unfold Paging.createAddressSpace Paging.allocPage
  cases hs : p.script with
  | nil => exact ⟨rfl,rfl,rfl⟩
  | cons o rest =>
    cases o with
    | none => exact ⟨rfl,rfl,rfl⟩
    | some a => exact absurd hs (h a rest)

theorem unmap_rejected {p : Paging} (hv : ¬ UserPage v) : p.unmap r v = p := by
  unfold Paging.unmap
  rw [if_pos]
  by_cases hu : Paging.isUserPage v = true
  · simpa [hu] using fun hm => hv ⟨hu,hm⟩
  · simp [hu]

theorem protect_rejected {p : Paging} {flags : PageFlags} (hv : ¬ UserPage v) :
    p.protect r v flags = (false,p) := by
  unfold Paging.protect
  rw [if_pos]
  by_cases hu : Paging.isUserPage v = true
  · simpa [hu] using fun hm => hv ⟨hu,hm⟩
  · simp [hu]

def Sets (s : AddressSpaces) (p : Paging) (r : BitVec 64) (v : Nat) (e : BitVec 64) : Prop :=
  Paging.Sets s.paging p (· ∈ s.roots) r v e

def Same (s : AddressSpaces) (p : Paging) : Prop := Paging.Same s.paging p (· ∈ s.roots)

section
variable (h : s.Sound) {pages : List (Option (BitVec 64))}
include h

theorem Sound.map {phys : BitVec 64} {flags : PageFlags} (hr : r ∈ s.roots)
    (he : s.Valid (.map r v phys flags pages)) (ha : phys &&& offsetMask = 0) :
    ((s.withPages pages).map r v phys flags).Sound (· ∈ s.roots) ∧
    ((s.withPages pages).map r v phys flags).kernelEntry = s.paging.kernelEntry ∧
    (s.Sets ((s.withPages pages).map r v phys flags) r v (phys ||| flags.bits) ∨
      s.Same ((s.withPages pages).map r v phys flags) ∧ ¬ (s.withPages pages).Ready 3) := by
  obtain ⟨hk,hmap,-⟩ := (sound_withPages h pages).map he.2 hr he.1 ha flags
  have hleaf : ∀ r v, (s.withPages pages).leafOf r v = s.paging.leafOf r v := fun r v => Paging.leafOf_of_tables rfl
  refine ⟨hk.sound,hk.kernelEntry,hmap.imp (fun hs r' v' hr' hv' => ?_) fun hs => ⟨fun r' v' hr' hv' => ?_,hs.2⟩⟩
  · rw [hs r' v' hr' hv',hleaf]
  · rw [hs.1 r' v' hr' hv',hleaf]

theorem Sound.create_leaf (he : s.Valid (.create pages)) :
    (s.step (.create pages)).Sound ∧ (s.step (.create pages)).paging.kernelEntry = s.paging.kernelEntry ∧
    s.Same (s.step (.create pages)).paging := by
  have hleaf : ∀ r v, (s.withPages pages).leafOf r v = s.paging.leafOf r v := fun r v => Paging.leafOf_of_tables rfl
  by_cases hp : ∃ a rest, pages = some a :: rest
  · obtain ⟨a,rest,rfl⟩ := hp
    obtain ⟨s',hs',hc⟩ := (sound_withPages h _).create he rfl
    have hroots : (· ∈ a :: s.roots) = fun r => r = a ∨ r ∈ s.roots := by
      funext r
      simp
    simp only [AddressSpaces.step,hs']
    refine ⟨?_,hc.kernelEntry,fun r v hr hv => by rw [hc.leaf r v hr hv,hleaf]⟩
    unfold AddressSpaces.Sound
    rw [hroots]
    exact hc.sound
  obtain ⟨h₁,h₂,h₃⟩ := create_none (p := s.withPages pages) fun a rest hs => hp ⟨a,rest,hs⟩
  simp only [AddressSpaces.step]
  cases hc : (s.withPages pages).createAddressSpace with
  | mk o p =>
    rw [hc] at h₁ h₂ h₃
    simp only at h₁ h₂ h₃
    subst h₁
    exact ⟨Paging.Sound.of_tables h h₂ h₃,h₃,fun r v _ _ => Paging.leafOf_of_tables h₂⟩

end

theorem discard_tables (p : Paging) (owns : Nat → Bool) (active : Bool) :
    (p.discardAddressSpace r owns active).tables = p.tables ∧
      (p.discardAddressSpace r owns active).kernelEntry = p.kernelEntry := by
  unfold Paging.discardAddressSpace
  split
  · exact ⟨rfl,rfl⟩
  obtain ⟨h₁,h₂,-⟩ := Paging.freed_foldl (p.discarded owns r) p
  exact ⟨h₁,h₂⟩

theorem Sound.step (h : s.Sound) (e : Event) (he : s.Valid e) :
    (s.step e).Sound ∧ (s.step e).paging.kernelEntry = s.paging.kernelEntry := by
  cases e with
  | create pages =>
    obtain ⟨h₁,h₂,-⟩ := h.create_leaf he
    exact ⟨h₁,h₂⟩
  | map root virt phys flags pages =>
    simp only [AddressSpaces.step]
    split
    · rename_i hr
      by_cases ha : phys &&& offsetMask = 0
      · obtain ⟨h₁,h₂,-⟩ := h.map hr he ha
        exact ⟨h₁,h₂⟩
      · rw [Paging.map_rejected ha]
        exact ⟨sound_withPages h pages,rfl⟩
    · exact ⟨h,rfl⟩
  | unmap root virt =>
    simp only [AddressSpaces.step]
    split
    · rename_i hr
      by_cases hv : UserPage virt
      · obtain ⟨h₁,h₂,-⟩ := Paging.Sound.unmap h hr hv
        exact ⟨h₁,h₂⟩
      · rw [unmap_rejected hv]
        exact ⟨h,rfl⟩
    · exact ⟨h,rfl⟩
  | protect root virt flags =>
    simp only [AddressSpaces.step]
    split
    · rename_i hr
      by_cases hv : UserPage virt
      · obtain ⟨h₁,h₂,-⟩ := Paging.Sound.protect h hr hv flags
        exact ⟨h₁,h₂⟩
      · rw [protect_rejected hv]
        exact ⟨h,rfl⟩
    · exact ⟨h,rfl⟩
  | discard root owns active =>
    simp only [AddressSpaces.step]
    split
    · obtain ⟨h₁,h₂⟩ := discard_tables (r := root) s.paging owns active
      have hsub : s.paging.Sound (· ∈ s.roots.filter (· ≠ root)) :=
        Paging.Sound.mono h fun r hr => (mem_filter.mp hr).1
      exact ⟨Paging.Sound.of_tables hsub h₁ h₂,h₂⟩
    · exact ⟨h,rfl⟩

theorem sound_init (tables : BitVec 64 → Nat → BitVec 64) (kernelEntry : BitVec 64) :
    (init tables kernelEntry).Sound where
  forest := ⟨fun _ _ => pathOk_init,fun _ _ _ _ _ hr => absurd hr not_mem_nil⟩
  flags := fun _ _ _ _ hr => absurd hr not_mem_nil
  slots := fun _ hr => absurd hr not_mem_nil
  aligned := fun _ hr => absurd hr not_mem_nil

theorem sound_run {tables : BitVec 64 → Nat → BitVec 64} {kernelEntry : BitVec 64} {es : List Event}
    (h : (machine tables kernelEntry).Along Valid (init tables kernelEntry) es) :
    ((machine tables kernelEntry).run es).Sound :=
  (machine tables kernelEntry).runFrom_invariant Valid (fun _ e hs he => (hs.step e he).1)
    (sound_init tables kernelEntry) es h

/-- In every state of every run each address space is a map from pages, of which a call changes one entry or, if it
fails, none. Discarding an address space changes no other one and gives back the owned frames and the tables, each
once if no frame is mapped twice or is a table. -/
theorem page_tables_are_maps (tables : BitVec 64 → Nat → BitVec 64) (kernelEntry : BitVec 64) (es : List Event)
    (h : (machine tables kernelEntry).Along Valid (init tables kernelEntry) es) :
    let s := (machine tables kernelEntry).run es
    (∀ r ∈ s.roots, ∀ v phys flags pages, s.Valid (.map r v phys flags pages) → phys.toNat < 2^52 →
      let p := (s.withPages pages).map r v phys flags
      (phys &&& offsetMask ≠ 0 → s.Same p) ∧
      (phys &&& offsetMask = 0 →
        s.Sets p r v (phys ||| flags.bits) ∧ (phys ||| flags.bits) &&& frameMask = phys ∧
          (phys ||| flags.bits) &&& permissionMask = flags.bits ∨
        s.Same p ∧ ¬ (s.withPages pages).Ready 3)) ∧
    (∀ r ∈ s.roots, ∀ v, UserPage v → s.Sets (s.paging.unmap r v) r v 0) ∧
    (∀ r ∈ s.roots, ∀ v flags, UserPage v →
      let e := s.paging.leafOf r v
      (e &&& pagePresent = 0 → (s.paging.protect r v flags).1 = false ∧ s.Same (s.paging.protect r v flags).2) ∧
      (e &&& pagePresent ≠ 0 → (s.paging.protect r v flags).1 = true ∧
        ∃ e', s.Sets (s.paging.protect r v flags).2 r v e' ∧ e' &&& frameMask = e &&& frameMask ∧
          e' &&& permissionMask = flags.bits)) ∧
    (∀ r ∈ s.roots, ∀ v, UserLayout.amd64.userRange v 1 = true →
      let e := s.paging.leafOf r (pageOf v)
      let phys := e &&& frameMask ||| BitVec.ofNat 64 (v % 2^12)
      s.paging.getPhys r v = (if e &&& pagePresent ≠ 0 then phys else 0) ∧
      ∀ write, s.paging.getUserPhys r v write =
        if e &&& Paging.userFlags write = Paging.userFlags write then phys else 0) ∧
    (∀ e, s.Valid e → ∀ r ∈ s.roots, r ∈ (s.step e).roots →
      (s.step e).paging.tables r 0 = s.paging.tables r 0 ∧
      ∀ i, 256 ≤ i → (s.step e).paging.tables r i = s.paging.tables r i) ∧
    (∀ pages, s.Valid (.create pages) → s.Same (s.step (.create pages)).paging) ∧
    (∀ r ∈ s.roots, ∀ owns, (s.step (.discard r owns true)) = s ∧
      s.Same (s.step (.discard r owns false)).paging ∧
      (s.step (.discard r owns false)).roots = s.roots.filter (· ≠ r) ∧
      ∃ (pages : List Nat) (ts : List (BitVec 64)),
        let frame := fun v => s.paging.leafOf r v &&& frameMask
        (s.step (.discard r owns false)).paging.freed ~ (pages.map frame ++ ts ++ [r]) ++ s.paging.freed ∧
        pages.Nodup ∧
        (∀ v, v ∈ pages ↔ UserPage v ∧ owns v = true ∧ s.paging.leafOf r v &&& pagePresent ≠ 0) ∧
        ts.Nodup ∧ r ∉ ts ∧ (∀ a, a ∈ ts ↔ ∃ q, PathOk q ∧ q ≠ [] ∧ s.paging.walk r q = some a) ∧
        ((∀ v ∈ pages, ∀ v' ∈ pages, frame v = frame v' → v = v') →
          (∀ v ∈ pages, frame v ∉ ts ∧ frame v ≠ r) → (pages.map frame ++ ts ++ [r]).Nodup)) := by
  intro s
  have hs : s.Sound := sound_run h
  refine ⟨fun r hr v phys flags pages he hphys => ⟨fun ha => ?_,fun ha => ?_⟩,
    fun r hr v hv => (Paging.Sound.unmap hs hr hv).2.2,fun r hr v flags hv => ?_,fun r hr v hv =>
      ⟨Paging.Sound.getPhys hs hr hv,Paging.Sound.getUserPhys hs hr hv⟩,fun e he r hr hr' => ?_,
    fun pages he => (hs.create_leaf he).2.2,fun r hr owns => ?_⟩
  · rw [Paging.map_rejected ha]
    exact fun r' v' _ _ => Paging.leafOf_of_tables rfl
  · have hframe := frame_of_aligned hphys ha
    exact (hs.map hr he ha).2.2.imp_left fun hsets => ⟨hsets,entry_parts hframe flags⟩
  · obtain ⟨-,-,hsets,hres⟩ := Paging.Sound.protect hs hr hv flags
    refine ⟨fun hn => ⟨?_,fun r' v' hr' hv' => ?_⟩,fun hp =>
      ⟨hres.mpr hp,_,hsets,Paging.protectedEntry_parts hp flags⟩⟩
    · exact Bool.eq_false_iff.mpr fun ht => hres.mp ht hn
    rw [hsets r' v' hr' hv',Paging.protectedEntry,if_pos hn]
    split
    · rename_i hsame
      rw [hsame.1,hsame.2]
    · rfl
  · obtain ⟨h₁,h₂⟩ := hs.step e he
    obtain ⟨h₀,h256⟩ := hs.slots r hr
    obtain ⟨h₀',h256'⟩ := h₁.slots r hr'
    exact ⟨by rw [h₀',h₀,h₂],fun i hi => by rw [h256' i hi,h256 i hi]⟩
  have hstep : s.step (.discard r owns false) =
      ⟨s.paging.discardAddressSpace r owns false,s.roots.filter (· ≠ r)⟩ := by
    simp [AddressSpaces.step,hr]
  have hne : r ≠ 0 := (hs.aligned r hr).2
  rw [hstep]
  refine ⟨by simp [AddressSpaces.step],fun r' v' _ _ => Paging.leafOf_of_tables (discard_tables _ owns false).1,rfl,?_⟩
  obtain ⟨pages,ts,hperm,hpages,hpage,hts,hroot,htable⟩ := Paging.Sound.discarded hs hr owns
  refine ⟨pages,ts,?_,hpages,hpage,hts,hroot,htable,fun hinj hapart => ?_⟩
  · simp only [Paging.discardAddressSpace,hne,decide_false,Bool.or_false,Bool.false_eq_true,if_false]
    rw [(Paging.freed_foldl _ _).2.2]
    exact ((reverse_perm _).trans hperm).append_right _
  refine Nodup.append (Nodup.append (hpages.map_on fun v hv v' hv' => hinj v hv v' hv') hts ?_)
    (by simp) ?_
  · intro x hx hx'
    obtain ⟨v,hv,rfl⟩ := mem_map.mp hx
    exact (hapart v hv).1 hx'
  intro x hx hx'
  obtain rfl := mem_singleton.mp hx'
  rcases mem_append.mp hx with hx | hx
  · obtain ⟨v,hv,he⟩ := mem_map.mp hx
    exact (hapart v hv).2 he
  · exact hroot hx

theorem freed_twice (h : s.Sound) (hr : r ∈ s.roots) (v' : Nat) (hne : v ≠ v') (hv : UserPage v) (hv' : UserPage v')
    (hp : s.paging.leafOf r v &&& pagePresent ≠ 0) (hsame : s.paging.leafOf r v' = s.paging.leafOf r v) :
    2 ≤ (s.paging.discarded (fun _ => true) r).count (s.paging.leafOf r v &&& frameMask) := by
  obtain ⟨pages,ts,hperm,-,hpage,-⟩ := Paging.Sound.discarded h hr fun _ => true
  have hin : v ∈ pages := (hpage v).mpr ⟨hv,rfl,hp⟩
  have hin' : v' ∈ pages.erase v :=
    (mem_erase_of_ne (Ne.symm hne)).mpr ((hpage v').mpr ⟨hv',rfl,by rw [hsame]; exact hp⟩)
  have hpages : pages ~ v :: v' :: (pages.erase v).erase v' :=
    (perm_cons_erase hin).trans ((perm_cons_erase hin').cons v)
  rw [hperm.count_eq,append_assoc,count_append,(hpages.map _).count_eq]
  simp only [map_cons,hsame,count_cons_self]
  omega

theorem Sound.map_ready (h : s.Sound) {phys : BitVec 64} {flags : PageFlags} {pages : List (Option (BitVec 64))}
    (hr : r ∈ s.roots) (he : s.Valid (.map r v phys flags pages)) (ha : phys &&& offsetMask = 0) {k : Nat}
    (hready : (s.withPages pages).Ready (k + 3)) :
    (s.step (.map r v phys flags pages)).roots = s.roots ∧
    s.Sets (s.step (.map r v phys flags pages)).paging r v (phys ||| flags.bits) ∧
    (s.step (.map r v phys flags pages)).paging.Fresh (· ∈ s.roots) ∧
    (s.step (.map r v phys flags pages)).paging.Ready k := by
  obtain ⟨hk,-,hleft⟩ := (sound_withPages h pages).map he.2 hr he.1 ha flags
  have hstep : s.step (.map r v phys flags pages) = { s with paging := (s.withPages pages).map r v phys flags } := by
    simp only [AddressSpaces.step,if_pos hr]
  rw [hstep]
  refine ⟨rfl,?_,hk.fresh,hleft k hready⟩
  exact (h.map hr he ha).2.2.resolve_right fun hno => hno.2 fun j hj => hready j (by omega)

def sparePages : List (Option (BitVec 64)) :=
  [some 0x2000,some 0x3000,some 0x4000,some 0x5000,some 0x6000,some 0x7000]

def mappedOnce : List Event :=
  [.create [some 0x1000],.map 0x1000 0x8000000000 0x9000 ⟨true,true,true,true⟩ sparePages]

def mappedTwice : List Event :=
  mappedOnce ++ [.map 0x1000 0x8000001000 0x9000 ⟨true,true,true,true⟩
    ((machine (fun _ _ => 0) 0).run mappedOnce).paging.script]

theorem sparePages_ready (p : Paging) : Paging.Ready { p with script := sparePages } (3 + 3) := by
  intro j hj
  rcases j with _ | _ | _ | _ | _ | _ | j
  · exact ⟨_,rfl⟩
  · exact ⟨_,rfl⟩
  · exact ⟨_,rfl⟩
  · exact ⟨_,rfl⟩
  · exact ⟨_,rfl⟩
  · exact ⟨_,rfl⟩
  · omega

theorem mappedTwice_spec : (machine (fun _ _ => 0) 0).Along Valid (init (fun _ _ => 0) 0) mappedTwice ∧
    let s := (machine (fun _ _ => 0) 0).run mappedTwice
    0x1000 ∈ s.roots ∧ s.paging.leafOf 0x1000 0x8000000000 = 0x9000 ||| (PageFlags.mk true true true true).bits ∧
      s.paging.leafOf 0x1000 0x8000001000 = 0x9000 ||| (PageFlags.mk true true true true).bits := by
  have hv : UserPage 0x8000000000 := by rw [userPage_iff]; decide
  have hv' : UserPage 0x8000001000 := by rw [userPage_iff]; decide
  have hs₀ := sound_init (fun _ _ => 0) 0
  have he₀ : (init (fun _ _ => 0) 0).Valid (.create [some 0x1000]) :=
    ⟨by decide,fun a ha => by obtain rfl := some.inj (mem_singleton.mp ha); decide,
      fun a _ r p hr => absurd hr not_mem_nil⟩
  obtain ⟨p₁,hp₁,hc⟩ := (sound_withPages hs₀ [some 0x1000]).create he₀ rfl
  have hstep₁ : (init (fun _ _ => 0) 0).step (.create [some 0x1000]) = ⟨p₁,[0x1000]⟩ := by
    simp only [AddressSpaces.step,hp₁]
    rfl
  have hs₁ := (hs₀.step _ he₀).1
  -- the first map
  have he₁ : ((init (fun _ _ => 0) 0).step (.create [some 0x1000])).Valid
      (.map 0x1000 0x8000000000 0x9000 ⟨true,true,true,true⟩ sparePages) := by
    rw [hstep₁]
    refine ⟨hv,show (sparePages.filterMap id).Nodup by decide,fun a ha => ?_,fun a ha r p hr hp hw => ?_⟩
    · simp only [withPages,sparePages,mem_cons,some.injEq,not_mem_nil,or_false] at ha
      rcases ha with rfl | rfl | rfl | rfl | rfl | rfl <;> decide
    obtain rfl := mem_singleton.mp hr
    obtain ⟨-,rfl⟩ := hc.empty p a hp hw
    simp [withPages,sparePages] at ha
  have hr₁ : 0x1000 ∈ ((init (fun _ _ => 0) 0).step (.create [some 0x1000])).roots := by
    rw [hstep₁]
    exact mem_singleton.mpr rfl
  obtain ⟨hroots₂,hsets₂,hfresh₂,hready₂⟩ := hs₁.map_ready hr₁ he₁ (by decide) (sparePages_ready _)
  have hs₂ := (hs₁.step _ he₁).1
  -- the second map
  have hrun : (machine (fun _ _ => 0) 0).run mappedOnce = ((init (fun _ _ => 0) 0).step (.create [some 0x1000])).step
      (.map 0x1000 0x8000000000 0x9000 ⟨true,true,true,true⟩ sparePages) := rfl
  rw [← hrun] at hroots₂ hsets₂ hfresh₂ hready₂ hs₂
  have he₂ : ((machine (fun _ _ => 0) 0).run mappedOnce).Valid (.map 0x1000 0x8000001000 0x9000
      ⟨true,true,true,true⟩ ((machine (fun _ _ => 0) 0).run mappedOnce).paging.script) := by
    refine ⟨hv',?_⟩
    rw [hroots₂]
    exact hfresh₂
  have hr₂ : 0x1000 ∈ ((machine (fun _ _ => 0) 0).run mappedOnce).roots := by
    rw [hroots₂]
    exact hr₁
  obtain ⟨hroots₃,hsets₃,-⟩ := hs₂.map_ready (k := 0) hr₂ he₂ (by decide) hready₂
  refine ⟨⟨he₀,he₁,he₂,trivial⟩,?_⟩
  have hrun' : (machine (fun _ _ => 0) 0).run mappedTwice =
      AddressSpaces.step ((machine (fun _ _ => 0) 0).run mappedOnce) (.map 0x1000 0x8000001000 0x9000
        ⟨true,true,true,true⟩ ((machine (fun _ _ => 0) 0).run mappedOnce).paging.script) :=
    (machine (fun _ _ => 0) 0).run_concat mappedOnce _
  rw [hrun']
  refine ⟨by rw [hroots₃]; exact hr₂,?_,?_⟩
  · rw [hsets₃ 0x1000 0x8000000000 hr₂ hv,if_neg (by decide),hsets₂ 0x1000 0x8000000000 hr₁ hv,if_pos ⟨rfl,rfl⟩]
  · rw [hsets₃ 0x1000 0x8000001000 hr₂ hv',if_pos ⟨rfl,rfl⟩]

theorem discard_frees_alias_twice :
    (machine (fun _ _ => 0) 0).Along Valid (init (fun _ _ => 0) 0) mappedTwice ∧
    let s := (machine (fun _ _ => 0) 0).run mappedTwice
    0x1000 ∈ s.roots ∧ 2 ≤ (s.paging.discarded (fun _ => true) 0x1000).count 0x9000 := by
  obtain ⟨hvalid,hr,hleaf,hleaf'⟩ := mappedTwice_spec
  refine ⟨hvalid,hr,?_⟩
  have htwice := freed_twice (v := 0x8000000000) (sound_run hvalid) hr 0x8000001000 (by decide)
    (by rw [userPage_iff]; decide) (by rw [userPage_iff]; decide) (by rw [hleaf]; decide) (by rw [hleaf,hleaf'])
  rw [hleaf] at htwice
  exact htwice

theorem page_tables_are_maps_mapped :
    let s := (machine (fun _ _ => 0) 0).run mappedTwice
    let p := s.paging.unmap 0x1000 0x8000000000
    0x1000 ∈ s.roots ∧ p.leafOf 0x1000 0x8000000000 = 0 ∧
      p.leafOf 0x1000 0x8000001000 = 0x9000 ||| (PageFlags.mk true true true true).bits := by
  obtain ⟨hvalid,hr,-,hleaf⟩ := mappedTwice_spec
  have hv : UserPage 0x8000000000 := by rw [userPage_iff]; decide
  have hv' : UserPage 0x8000001000 := by rw [userPage_iff]; decide
  have hsets := (page_tables_are_maps (fun _ _ => 0) 0 mappedTwice hvalid).2.1 0x1000 hr 0x8000000000 hv
  refine ⟨hr,?_,?_⟩
  · rw [hsets 0x1000 0x8000000000 hr hv,if_pos ⟨rfl,rfl⟩]
  · rw [hsets 0x1000 0x8000001000 hr hv',if_neg (by decide),hleaf]

end AddressSpaces
end Rucux.Memory
