import Rucux.Memory.PagingRefinement

/-! Frames and page tables of an address space that is being built. -/

namespace Rucux.Memory
open List

theorem present_entry {p : BitVec 64} {f : PageFlags} (h : f.present = true) : (p ||| f.bits) &&& pagePresent ≠ 0 := by
  have hbits : f.bits &&& pagePresent = pagePresent := by
    obtain ⟨a,b,c,d⟩ := f
    cases h
    cases b <;> cases c <;> cases d <;> decide
  rw [or_and_distrib,hbits]
  intro hzero
  have hbit : ((p &&& pagePresent) ||| pagePresent).getLsbD 0 = false := by rw [hzero]; rfl
  rw [BitVec.getLsbD_or] at hbit
  have hone : pagePresent.getLsbD 0 = true := by decide
  rw [hone,Bool.or_true] at hbit
  cases hbit

theorem offset_of_frame {p : BitVec 64} (h : p &&& frameMask = p) : p &&& offsetMask = 0 := by
  have hmask : frameMask &&& offsetMask = 0 := by decide
  rw [← h,BitVec.and_assoc,hmask]
  exact BitVec.and_zero

namespace Paging
variable {s s' : Paging} {roots : BitVec 64 → Prop} {r a : BitVec 64} {v k : Nat}

theorem Sound.getPhys_page (h : s.Sound roots) (hr : roots r) (hv : UserPage v) :
    s.getPhys r v = if s.leafOf r v &&& pagePresent ≠ 0 then s.leafOf r v &&& frameMask else 0 := by
  have hv' := userPage_iff.mp hv
  have hrange : UserLayout.amd64.userRange v 1 = true := by
    simp only [UserLayout.userRange,Bool.and_eq_true,decide_eq_true_eq]
    simp only [UserLayout.amd64]
    omega
  have hpage : pageOf v = v := by
    unfold pageOf
    omega
  rw [h.getPhys hr hrange,hpage,show v % 2^12 = 0 by omega]
  congr 1
  exact BitVec.or_zero

def drawn (s : Paging) (page : BitVec 64) (rest : List (Option (BitVec 64))) : Paging :=
  { s with script := rest, taken := page :: s.taken }

theorem allocPage_cases (s : Paging) : (∃ page rest, s.script = some page :: rest ∧
      s.allocPage = (some page,s.drawn page rest)) ∨
    ∃ rest, rest <:+ s.script ∧ rest.filterMap id = s.script.filterMap id ∧ ¬ s.Ready 1 ∧
      s.allocPage = (none,{ s with script := rest }) := by
  obtain ⟨tables,kernelEntry,script,taken,freed⟩ := s
  cases script with
  | nil =>
    refine .inr ⟨[],suffix_refl _,rfl,fun hready => ?_,rfl⟩
    obtain ⟨a,ha⟩ := hready 0 (by omega)
    cases ha
  | cons o rest =>
    cases o with
    | some page => exact .inl ⟨page,rest,rfl,rfl⟩
    | none =>
      refine .inr ⟨rest,suffix_cons _ _,rfl,fun hready => ?_,rfl⟩
      obtain ⟨a,ha⟩ := hready 0 (by omega)
      cases ha

theorem inUse_root : s.InUse (· = r) a ↔ a ∈ r :: s.tablesOf r := by
  rw [mem_cons,mem_tablesOf]
  constructor
  · rintro ⟨r',p,rfl,hp,ha⟩
    by_cases hnil : p = []
    · subst hnil
      cases ha
      exact .inl rfl
    · exact .inr ⟨p,hp,hnil,ha⟩
  rintro (rfl | ⟨p,hp,-,ha⟩)
  · exact ⟨a,[],rfl,pathOk_nil,rfl⟩
  · exact ⟨r,p,rfl,hp,ha⟩

theorem Draws.perm (hd : Draws s s' (· = r)) (h : s.Sound (· = r)) (hf : s.Fresh (· = r)) (h' : s'.Sound (· = r)) :
    ∃ new, s'.taken = new ++ s.taken ∧ s.script.filterMap id = new.reverse ++ s'.script.filterMap id ∧
      r :: s'.tablesOf r ~ new ++ (r :: s.tablesOf r) := by
  obtain ⟨new,ht,hs,hin⟩ := hd
  have hnodup : (r :: s.tablesOf r).Nodup := nodup_cons.mpr ⟨(h.tablesOf_nodup rfl).2,(h.tablesOf_nodup rfl).1⟩
  have hnodup' : (r :: s'.tablesOf r).Nodup :=
    nodup_cons.mpr ⟨(h'.tablesOf_nodup rfl).2,(h'.tablesOf_nodup rfl).1⟩
  have hscript := hf.nodup
  rw [hs,nodup_append] at hscript
  have hapart : ∀ a ∈ new, a ∉ r :: s.tablesOf r := by
    intro a ha hmem
    obtain ⟨r',p,hr',hp,hw⟩ := inUse_root.mpr hmem
    have hsome : a ∈ s.script.filterMap id := by
      rw [hs]
      exact mem_append_left _ (mem_reverse.mpr ha)
    obtain ⟨o,ho,rfl⟩ := mem_filterMap.mp hsome
    exact hf.unused a ho r' p hr' hp hw
  refine ⟨new,ht,hs,(perm_ext_iff_of_nodup hnodup' (nodup_append.mpr
    ⟨nodup_reverse.mp hscript.1,hnodup,fun a ha b hb hab => hapart a ha (hab ▸ hb)⟩)).mpr fun a => ?_⟩
  rw [← inUse_root,hin,inUse_root,mem_append,or_comm]

end Paging
end Rucux.Memory

namespace Rucux.Process
open Lib Memory
open scoped List

/-- The page tables, and the bytes of the frames -/
structure UserMemory where
  paging : Paging
  frames : BitVec 64 → List UInt8

/-- How a page comes into a new address space: a frame is allocated, filled, mapped and looked up. -/
def UserMemory.placePage (m : UserMemory) (root : BitVec 64) (virt : Nat) (flags : PageFlags)
    (content : Option (List UInt8)) : Option (Bool × UserMemory) :=
  match m.paging.allocPage with
  | (none,paging) => some (false,{ m with paging })
  | (some page,paging) =>
    content.map fun frame =>
      let paging := paging.map root virt page flags
      let frames := Function.update m.frames page frame
      if paging.getPhys root virt ≠ page then (false,⟨paging.freePage page,frames⟩)
      else (true,⟨paging,frames⟩)

structure Placed where
  virt : Nat
  page : BitVec 64
  flags : PageFlags
  content : List UInt8

/-- `lost` has the pages that were replaced by another, and `back` those that were freed again. -/
structure Populated (m : UserMemory) (r : BitVec 64) (start : Paging) (placed : List Placed)
    (lost back : List (BitVec 64)) : Prop where
  sound : m.paging.Sound (· = r)
  fresh : m.paging.Fresh (· = r)
  freed : m.paging.freed = back ++ start.freed
  user : ∀ x ∈ placed, UserPage x.virt
  once : (placed.map Placed.virt).Nodup
  leaf : ∀ x ∈ placed, m.paging.leafOf r x.virt = x.page ||| x.flags.bits
  vacant : ∀ v, UserPage v → v ∉ placed.map Placed.virt → m.paging.leafOf r v = 0
  present : ∀ x ∈ placed, x.flags.present = true
  frame : ∀ x ∈ placed, x.page &&& frameMask = x.page ∧ x.page ≠ 0
  content : ∀ x ∈ placed, m.frames x.page = x.content
  taken : ∃ new, m.paging.taken = new ++ start.taken ∧ (new ++ m.paging.script.filterMap id).Nodup ∧
    new ~ (r :: m.paging.tablesOf r) ++ placed.map Placed.page ++ lost ++ back

namespace Populated
variable {m : UserMemory} {r page : BitVec 64} {start : Paging} {placed : List Placed} {lost back : List (BitVec 64)}
  {v k : Nat} {flags : PageFlags} {frame : List UInt8}

section
variable (h : Populated m r start placed lost back)
include h

theorem present_iff (hv : UserPage v) :
    m.paging.leafOf r v &&& pagePresent ≠ 0 ↔ v ∈ placed.map Placed.virt := by
  constructor
  · intro hp
    by_contra hno
    rw [h.vacant v hv hno] at hp
    exact hp BitVec.zero_and
  intro hv'
  obtain ⟨x,hx,rfl⟩ := List.mem_map.mp hv'
  rw [h.leaf x hx]
  exact present_entry (h.present x hx)

theorem getPhys {x : Placed} (hx : x ∈ placed) : m.paging.getPhys r x.virt = x.page := by
  rw [h.sound.getPhys_page rfl (h.user x hx),h.leaf x hx,if_pos (present_entry (h.present x hx))]
  exact (entry_parts (h.frame x hx).1 x.flags).1

theorem distinct : ((r :: m.paging.tablesOf r) ++ placed.map Placed.page ++ lost ++ back).Nodup := by
  obtain ⟨new,-,hnodup,hperm⟩ := h.taken
  exact hperm.nodup_iff.mp (List.nodup_append.mp hnodup).1

theorem getPhys_eq {x : Placed} (hx : x ∈ placed) (hv : UserPage v) (hphys : m.paging.getPhys r v = x.page) :
    v = x.virt := by
  have hpresent : m.paging.leafOf r v &&& pagePresent ≠ 0 := by
    intro hno
    rw [h.sound.getPhys_page rfl hv,if_neg (by simpa using hno)] at hphys
    exact (h.frame x hx).2 hphys.symm
  obtain ⟨y,hy,rfl⟩ := List.mem_map.mp ((h.present_iff hv).mp hpresent)
  rw [h.getPhys hy] at hphys
  have hpages : (placed.map Placed.page).Nodup := h.distinct.of_append_left.of_append_left.of_append_right
  exact congrArg Placed.virt (List.inj_on_of_nodup_map hpages hy hx hphys)

theorem unmapped_of_lost (hlost : page ∈ lost) (hne : page ≠ 0) :
    page ∉ r :: m.paging.tablesOf r ∧ ∀ v, UserPage v → m.paging.getPhys r v ≠ page := by
  have hapart := (List.nodup_append.mp h.distinct.of_append_left).2.2
  refine ⟨fun htable => hapart page (List.mem_append_left _ htable) page hlost rfl,fun v hv hphys => ?_⟩
  rw [h.sound.getPhys_page rfl hv] at hphys
  split at hphys
  · rename_i hp
    obtain ⟨x,hx,rfl⟩ := List.mem_map.mp ((h.present_iff hv).mp hp)
    rw [h.leaf x hx,(entry_parts (h.frame x hx).1 x.flags).1] at hphys
    exact hapart page (List.mem_append_right _ (hphys ▸ List.mem_map_of_mem hx)) page hlost rfl
  · exact hne hphys.symm

theorem page_ne (hs : some page ∈ m.paging.script) {x : Placed} (hx : x ∈ placed) : x.page ≠ page := by
  rintro rfl
  obtain ⟨new,-,hnodup,hperm⟩ := h.taken
  refine (List.nodup_append.mp hnodup).2.2 x.page (hperm.mem_iff.mpr ?_) x.page (List.mem_filterMap.mpr ⟨_,hs,rfl⟩) rfl
  have hmem : x.page ∈ placed.map Placed.page := List.mem_map_of_mem hx
  simp [hmem]

end

variable {rest : List (Option (BitVec 64))}

theorem refused (h : Populated m r start placed lost back) (hs : rest <:+ m.paging.script)
    (hsome : rest.filterMap id = m.paging.script.filterMap id) :
    Populated { m with paging := { m.paging with script := rest } } r start placed lost back where
  sound := h.sound.of_tables rfl rfl
  fresh := h.fresh.of_suffix rfl hs
  freed := h.freed
  user := h.user
  once := h.once
  leaf := h.leaf
  vacant := h.vacant
  present := h.present
  frame := h.frame
  content := h.content
  taken := by
    obtain ⟨new,ht,hnodup,hperm⟩ := h.taken
    exact ⟨new,ht,by rw [hsome]; exact hnodup,hperm⟩

theorem taken_map (h : Populated m r start placed lost back) {s : Paging}
    (hs : m.paging.script = some page :: rest) (hk : Paging.Keeps (m.paging.drawn page rest) s (· = r)) :
    ∃ new, s.taken = new ++ start.taken ∧ (new ++ s.script.filterMap id).Nodup ∧
      new ~ page :: ((r :: s.tablesOf r) ++ placed.map Placed.page ++ lost ++ back) := by
  obtain ⟨new,ht,hnodup,hperm⟩ := h.taken
  have hsuffix : rest <:+ m.paging.script := by
    rw [hs]
    exact List.suffix_cons _ _
  obtain ⟨tables,htables,hscript,hnew⟩ := hk.draws.perm (h.sound.of_tables rfl rfl)
    (h.fresh.of_suffix rfl hsuffix) hk.sound
  refine ⟨tables ++ page :: new,?_,?_,?_⟩
  · rw [htables,show (m.paging.drawn page rest).taken = page :: m.paging.taken from rfl,ht]
    simp
  · have hall : m.paging.script.filterMap id = page :: (tables.reverse ++ s.script.filterMap id) := by
      rw [hs,← hscript]
      rfl
    rw [hall] at hnodup
    refine (List.Perm.nodup_iff (List.perm_iff_count.mpr fun a => ?_)).mp hnodup
    simp only [List.count_append,List.count_cons,List.count_reverse]
    omega
  refine List.perm_iff_count.mpr fun a => ?_
  have h₁ := hperm.count_eq a
  have h₂ := hnew.count_eq a
  have h₃ : ((m.paging.drawn page rest).tablesOf r) = m.paging.tablesOf r := rfl
  rw [h₃] at h₂
  simp only [List.count_append,List.count_cons] at h₁ h₂ ⊢
  omega

theorem count_split (placed : List Placed) (v : Nat) (a : BitVec 64) :
    (placed.map Placed.page).count a = ((placed.filter (·.virt ≠ v)).map Placed.page).count a +
      ((placed.filter (·.virt = v)).map Placed.page).count a := by
  induction placed with
  | nil => rfl
  | cons x xs ih =>
    by_cases hx : x.virt = v
    all_goals
      simp [hx,List.count_cons] at ih ⊢
      omega

section
variable (h : Populated m r start placed lost back)
include h

theorem placed_new (hv : UserPage v) (hflags : flags.present = true) {s : Paging}
    (hs : m.paging.script = some page :: rest) (hk : Paging.Keeps (m.paging.drawn page rest) s (· = r))
    (hsets : Paging.Sets (m.paging.drawn page rest) s (· = r) r v (page ||| flags.bits)) :
    Populated ⟨s,Function.update m.frames page frame⟩ r start
      (⟨v,page,flags,frame⟩ :: placed.filter (·.virt ≠ v))
      ((placed.filter (·.virt = v)).map Placed.page ++ lost) back := by
  have hin : some page ∈ m.paging.script := by rw [hs]; exact List.mem_cons_self
  have hleaf : ∀ v', UserPage v' → s.leafOf r v' = if v' = v then page ||| flags.bits else m.paging.leafOf r v' := by
    intro v' hv'
    rw [hsets r v' rfl hv']
    simp only [true_and]
    rfl
  have hmem : ∀ x ∈ placed.filter (·.virt ≠ v), x ∈ placed ∧ x.virt ≠ v := fun x hx => by
    simpa using List.mem_filter.mp hx
  refine ⟨hk.sound,hk.fresh,hk.freed.trans h.freed,?_,?_,?_,fun v' hv' hno => ?_,?_,?_,?_,?_⟩
  · rintro x (_ | ⟨_,hx⟩)
    · exact hv
    · exact h.user x (hmem x hx).1
  · refine List.nodup_cons.mpr ⟨fun hx => ?_,h.once.sublist ((List.filter_sublist).map _)⟩
    obtain ⟨x,hx,hxv⟩ := List.mem_map.mp hx
    exact (hmem x hx).2 hxv
  · rintro x (_ | ⟨_,hx⟩)
    · exact (hleaf v hv).trans (if_pos rfl)
    rw [hleaf x.virt (h.user x (hmem x hx).1),if_neg (hmem x hx).2]
    exact h.leaf x (hmem x hx).1
  · rw [List.map_cons,List.mem_cons,not_or] at hno
    rw [hleaf v' hv',if_neg hno.1]
    refine h.vacant v' hv' fun hold => hno.2 ?_
    obtain ⟨x,hx,rfl⟩ := List.mem_map.mp hold
    exact List.mem_map_of_mem (List.mem_filter.mpr ⟨hx,by simpa using hno.1⟩)
  · rintro x (_ | ⟨_,hx⟩)
    · exact hflags
    · exact h.present x (hmem x hx).1
  · rintro x (_ | ⟨_,hx⟩)
    · exact h.fresh.page page hin
    · exact h.frame x (hmem x hx).1
  · rintro x (_ | ⟨_,hx⟩)
    · exact Function.update_self ..
    · exact (Function.update_of_ne (h.page_ne hin (hmem x hx).1) ..).trans (h.content x (hmem x hx).1)
  obtain ⟨new,ht,hnodup,hperm⟩ := h.taken_map hs hk
  refine ⟨new,ht,hnodup,hperm.trans (List.perm_iff_count.mpr fun a => ?_)⟩
  have hsplit := count_split placed v a
  simp only [List.map_cons,List.count_append,List.count_cons]
  omega

theorem given_back {s : Paging} (hs : m.paging.script = some page :: rest)
    (hk : Paging.Keeps (m.paging.drawn page rest) s (· = r))
    (hsame : Paging.Same (m.paging.drawn page rest) s (· = r)) :
    Populated ⟨s.freePage page,Function.update m.frames page frame⟩ r start placed lost (page :: back) := by
  have hin : some page ∈ m.paging.script := by rw [hs]; exact List.mem_cons_self
  have hleaf : ∀ v', UserPage v' → s.leafOf r v' = m.paging.leafOf r v' := fun v' hv' => hsame r v' rfl hv'
  refine ⟨hk.sound.of_tables rfl rfl,hk.fresh.of_suffix rfl (List.suffix_refl _),?_,h.user,h.once,fun x hx => ?_,
    fun v' hv' hno => ?_,h.present,h.frame,fun x hx => ?_,?_⟩
  · show page :: s.freed = _
    rw [hk.freed,List.cons_append,← h.freed]
    rfl
  · exact (hleaf x.virt (h.user x hx)).trans (h.leaf x hx)
  · exact (hleaf v' hv').trans (h.vacant v' hv' hno)
  · exact (Function.update_of_ne (h.page_ne hin hx) ..).trans (h.content x hx)
  obtain ⟨new,ht,hnodup,hperm⟩ := h.taken_map hs hk
  refine ⟨new,ht,hnodup,hperm.trans (List.perm_iff_count.mpr fun a => ?_)⟩
  have htables : (s.freePage page).tablesOf r = s.tablesOf r := rfl
  rw [htables]
  simp only [List.count_append,List.count_cons]
  omega

theorem placePage (hv : UserPage v) (hflags : flags.present = true) (frame : List UInt8) :
    ∃ ok m', m.placePage r v flags (some frame) = some (ok,m') ∧
      (ok = true → ∃ page, Populated m' r start (⟨v,page,flags,frame⟩ :: placed.filter (·.virt ≠ v))
        ((placed.filter (·.virt = v)).map Placed.page ++ lost) back) ∧
      (ok = false → ∃ back', Populated m' r start placed lost back') ∧
      ∀ k, m.paging.Ready (k+4) → ok = true ∧ m'.paging.Ready k := by
  unfold UserMemory.placePage
  rcases m.paging.allocPage_cases with ⟨page,rest,hs,halloc⟩ | ⟨rest,hsuffix,hsome,hready,halloc⟩
  · rw [halloc]
    simp only [Option.map_some]
    have hin : some page ∈ m.paging.script := by rw [hs]; exact List.mem_cons_self
    have hpage := h.fresh.page page hin
    have hsuffix : rest <:+ m.paging.script := by
      rw [hs]
      exact List.suffix_cons _ _
    obtain ⟨hk,hmap,hleft⟩ := Paging.Sound.map (r := r) (v := v) (s := m.paging.drawn page rest)
      (h.sound.of_tables rfl rfl) (h.fresh.of_suffix rfl hsuffix) rfl hv (offset_of_frame hpage.1) flags
    have hready : ∀ k, m.paging.Ready (k+1) → Paging.Ready (m.paging.drawn page rest) k := by
      intro k hk j hj
      obtain ⟨a,ha⟩ := hk (j+1) (by omega)
      rw [hs] at ha
      exact ⟨a,ha⟩
    have hphys := hk.sound.getPhys_page rfl hv
    rcases hmap with hsets | ⟨hsame,hnot⟩
    · have hgot := hsets r v rfl hv
      rw [if_pos ⟨rfl,rfl⟩] at hgot
      rw [hgot,if_pos (present_entry hflags),(entry_parts hpage.1 flags).1] at hphys
      rw [hphys,if_neg (by simp)]
      exact ⟨true,_,rfl,fun _ => ⟨page,h.placed_new hv hflags hs hk hsets⟩,nofun,
        fun k hk => ⟨rfl,hleft k (hready (k+3) hk)⟩⟩
    -- what is there is not the new page
    have hold : ((m.paging.drawn page rest).map r v page flags).getPhys r v ≠ page := by
      rw [hphys,hsame r v rfl hv]
      show (if m.paging.leafOf r v &&& pagePresent ≠ 0 then m.paging.leafOf r v &&& frameMask else 0) ≠ page
      split
      · rename_i hp
        obtain ⟨x,hx,rfl⟩ := List.mem_map.mp ((h.present_iff hv).mp hp)
        rw [h.leaf x hx,(entry_parts (h.frame x hx).1 x.flags).1]
        exact h.page_ne hin hx
      · exact Ne.symm hpage.2
    rw [if_pos hold]
    exact ⟨false,_,rfl,nofun,fun _ => ⟨_,h.given_back hs hk hsame⟩,
      fun k hk => absurd (fun j hj => hready (k+3) hk j (by omega)) hnot⟩
  rw [halloc]
  exact ⟨false,_,rfl,nofun,fun _ => ⟨back,h.refused hsuffix hsome⟩,
    fun k hk => absurd (fun j hj => hk j (by omega)) hready⟩

theorem discard :
    ∃ new gone, (m.paging.discardAddressSpace r (fun _ => true) false).taken = new ++ start.taken ∧
      (m.paging.discardAddressSpace r (fun _ => true) false).freed = gone ++ start.freed ∧ new.Nodup ∧
      new ~ gone ++ lost := by
  obtain ⟨new,ht,hnodup,hperm⟩ := h.taken
  have hroot := (h.sound.aligned r rfl).2
  have hstep : m.paging.discardAddressSpace r (fun _ => true) false =
      (m.paging.discarded (fun _ => true) r).foldl Paging.freePage m.paging := by
    rw [Paging.discardAddressSpace,if_neg (by simpa using hroot)]
  have htaken : ∀ (xs : List (BitVec 64)) (s : Paging), (xs.foldl Paging.freePage s).taken = s.taken := by
    intro xs
    induction xs with
    | nil => exact fun _ => rfl
    | cons x xs ih => exact fun s => ih _
  obtain ⟨pages,tables,hdiscard,hpages,hmem,htables,hnotin,htable⟩ := h.sound.discarded (r := r) rfl fun _ => true
  refine ⟨new,(m.paging.discarded (fun _ => true) r).reverse ++ back,?_,?_,(List.nodup_append.mp hnodup).1,?_⟩
  · rw [hstep,htaken,ht]
  · rw [hstep,(Paging.freed_foldl _ _).2.2,h.freed,List.append_assoc]
  have hperm₁ : pages ~ placed.map Placed.virt := by
    refine (List.perm_ext_iff_of_nodup hpages h.once).mpr fun v => ?_
    rw [hmem]
    constructor
    · rintro ⟨hv,-,hp⟩
      exact (h.present_iff hv).mp hp
    intro hv
    obtain ⟨x,hx,rfl⟩ := List.mem_map.mp hv
    exact ⟨h.user x hx,rfl,(h.present_iff (h.user x hx)).mpr hv⟩
  have hframes : (placed.map Placed.virt).map (fun v => m.paging.leafOf r v &&& frameMask) =
      placed.map Placed.page := by
    rw [List.map_map]
    refine List.map_congr_left fun x hx => ?_
    show m.paging.leafOf r x.virt &&& frameMask = x.page
    rw [h.leaf x hx,(entry_parts (h.frame x hx).1 x.flags).1]
  have hperm₂ : tables ~ m.paging.tablesOf r :=
    (List.perm_ext_iff_of_nodup htables (h.sound.tablesOf_nodup rfl).1).mpr fun a => by
      rw [htable,Paging.mem_tablesOf]
  refine hperm.trans (List.perm_iff_count.mpr fun a => ?_)
  have h₁ := hdiscard.count_eq a
  have h₂ := (hperm₁.map fun v => m.paging.leafOf r v &&& frameMask).count_eq a
  have h₃ := hperm₂.count_eq a
  rw [hframes] at h₂
  simp only [List.count_append,List.count_cons,List.count_nil,List.count_reverse] at h₁ ⊢
  omega

end

end Populated
end Rucux.Process
