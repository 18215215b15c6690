import Rucux.Memory.Vma

namespace Rucux.Memory
open Lib List Option Extent

variable {m : VmaManager} {rs xs ys ps qs : List (Nat × Vma)} {a b z k : Nat} {v u : Vma}
  {start stop cut : Nat}

abbrev content (rs : List (Nat × Vma)) (a : Nat) : Option Mapping := vmaExtent.content rs a

def Meets (start stop : Nat) (x : Nat × Vma) : Prop := x.2.start < stop ∧ start < x.2.stop

instance (start stop : Nat) (x : Nat × Vma) : Decidable (Meets start stop x) :=
  inferInstanceAs (Decidable (x.2.start < stop ∧ start < x.2.stop))

def Keeps (start stop : Nat) (rs rs' : List (Nat × Vma)) : Prop :=
  ∀ x ∈ rs, ¬Meets start stop x → x ∈ rs'

namespace VmaManager

theorem View.firstOverlap (h : View m rs) (hlt : start < stop) :
    ∃ a, m.firstOverlap start stop = some a ∧ (a = 0 ∧ (∀ x ∈ rs, ¬Meets start stop x) ∨
      ∃ ps v qs, rs = ps ++ (a,v) :: qs ∧ (∀ x ∈ ps, x.2.stop ≤ start) ∧ Meets start stop (a,v)) := by
  have hlen : rs.length < m.tree.fuel := by rw [h.fuel_eq]; omega
  have h' : View m ([] ++ rs) := h
  obtain ⟨a,h1,hres⟩ := h'.seek (fun r => decide (r.start ≥ stop)) (fun r => decide (r.stop > start))
    (h.halt_mono stop) hlen
  refine ⟨a,?_,?_⟩
  · rw [VmaManager.firstOverlap,if_neg (by omega)]
    simp only [h.first,bind_eq_bind,bind_some,h1]
  simp only [decide_eq_true_eq,decide_eq_false_iff_not] at hres
  rcases hres with ⟨h0,hno⟩ | ⟨ps,v,qs,rfl,hps,hv,hf⟩
  · refine .inl ⟨h0,fun x hx hm => ?_⟩
    have h2 := hm.1
    have h3 := hm.2
    rcases hno x hx with h4 | h4 <;> omega
  refine .inr ⟨ps,v,qs,rfl,fun x hx => ?_,?_,hf⟩
  · have := hps x hx
    omega
  · show v.start < stop
    omega

theorem content_nil (x : Nat) : content [] x = none := rfl

theorem content_cons (x : Nat) : content ((a,v) :: rs) x =
    if v.start ≤ x ∧ x < v.stop then some (v.mapping x) else content rs x := by
  by_cases h : v.start ≤ x ∧ x < v.stop
  all_goals simp [content,Extent.content,Extent.Around,vmaExtent,h]

theorem mapping_tailFrom {x : Nat} (h1 : v.start ≤ cut) (h2 : cut ≤ x) :
    (tailFrom v cut).mapping x = v.mapping x := by
  have hsum : x - v.start = (cut - v.start) + (x - cut) := by omega
  simp only [Vma.mapping,tailFrom,hsum,BitVec.ofNat_add,BitVec.add_assoc]

theorem content_split (h1 : v.start ≤ cut) (h2 : cut ≤ v.stop) (x : Nat) :
    content (xs ++ (a,{ v with stop := cut }) :: (z,tailFrom v cut) :: ys) x =
      content (xs ++ (a,v) :: ys) x := by
  have hone : content [(a,v)] x = content [(a,{ v with stop := cut }),(z,tailFrom v cut)] x := by
    simp only [content_cons,content_nil]
    by_cases hx : x < cut
    · have hstop : x < v.stop := by omega
      have hno : ¬cut ≤ x := by omega
      simp [tailFrom,Vma.mapping,hx,hstop,hno]
    have hstart : v.start ≤ x := by omega
    have hcut : cut ≤ x := by omega
    rw [mapping_tailFrom h1 hcut]
    simp [tailFrom,hx,hstart,hcut]
  exact ((content_congr hone).trans (by rw [append_assoc]; rfl)).symm

theorem ordered_split (h : vmaExtent.Ordered (xs ++ (a,v) :: ys)) (h1 : v.start < cut)
    (h2 : cut < v.stop) :
    vmaExtent.Ordered (xs ++ (a,{ v with stop := cut }) :: (z,tailFrom v cut) :: ys) := by
  obtain ⟨hrest,-,hxs,hys⟩ := ordered_middle.mp h
  have htail : vmaExtent.Ordered (xs ++ (z,tailFrom v cut) :: ys) := by
    refine ordered_middle.mpr ⟨hrest,h2,fun x hx => ?_,hys⟩
    have hle : x.2.stop ≤ v.start := hxs x hx
    show x.2.stop ≤ cut
    omega
  refine ordered_middle.mpr ⟨htail,h1,hxs,fun y hy => ?_⟩
  rcases mem_cons.mp hy with rfl | hy
  · exact Nat.le_refl cut
  have hle : v.stop ≤ y.2.start := hys y hy
  show cut ≤ y.2.start
  omega

theorem split_spec (h : View m (xs ++ (a,v) :: ys)) (h1 : v.start < cut) (h2 : cut < v.stop)
    (hz : z ∉ (xs ++ (a,v) :: ys).map (·.1)) :
    ∃ m', m.split a cut z = some (z,m') ∧ (z = 0 ∧ m' = m ∧ m.splitMoves a cut z = [] ∨ z ≠ 0 ∧
        View m' (xs ++ (a,{ v with stop := cut }) :: (z,tailFrom v cut) :: ys) ∧
        Counts (xs ++ (a,v) :: ys) (m.splitMoves a cut z)
          (xs ++ (a,{ v with stop := cut }) :: (z,tailFrom v cut) :: ys)) := by
  obtain ⟨ha,hv⟩ := h.here
  have hg1 : ¬cut ≤ v.start := by omega
  have hg2 : ¬v.stop ≤ cut := by omega
  by_cases h0 : z = 0
  · refine ⟨m,?_,.inl ⟨h0,rfl,by simp [splitMoves,hv,h0]⟩⟩
    subst h0
    rw [split,if_neg ha]
    simp [hv,hg1,hg2]
  obtain ⟨m',hm',hview⟩ := h.divide h0 hz (ordered_split h.ordered h1 h2)
  have hmoves : m.splitMoves a cut z = holdMove v.backing := by simp [splitMoves,ha,hv,hg1,hg2,h0]
  refine ⟨m',?_,.inr ⟨h0,hview,?_⟩⟩
  · rw [split,if_neg ha]
    simp [hv,hg1,hg2,h0,hm']
  · rw [hmoves]
    exact counts_hold (by simp) (by simp [tailFrom])

theorem keeps_split (hm : Meets start stop (a,v)) : Keeps start stop (xs ++ (a,v) :: ys)
      (xs ++ (a,{ v with stop := cut }) :: (z,tailFrom v cut) :: ys) := by
  intro x hx hno
  rcases mem_cons.mp (perm_middle.mem_iff.mp hx) with rfl | hx
  · exact absurd hm hno
  · rcases mem_append.mp hx with hx | hx <;> simp [hx]

theorem insert_spec (h : View m rs) (hz : z ∉ rs.map (·.1)) :
    ∃ b m' ms, m.insert v z = some (b,m') ∧ m.insertMoves v z = some ms ∧
      (b = 0 ∧ m' = m ∧ ms = [] ∨ b = z ∧ z ≠ 0 ∧ v.start < v.stop ∧ (∀ x ∈ rs, ¬Meets v.start v.stop x) ∧
        ms = holdMove v.backing ∧ ∃ xs ys, rs = xs ++ ys ∧ View m' (xs ++ (z,v) :: ys)) := by
  unfold insert insertMoves
  by_cases hlt : v.start < v.stop
  · rw [if_neg (by omega),if_neg (by omega)]
    obtain ⟨a,h1,hres⟩ := h.firstOverlap hlt
    rcases hres with ⟨rfl,hno⟩ | ⟨ps,u,qs,rfl,-⟩
    · by_cases h0 : z = 0
      · exact ⟨0,m,[],by simp [h1,h0],by simp [h1,h0],.inl ⟨rfl,rfl,rfl⟩⟩
      obtain ⟨xs,ys,rfl,hxs,hys⟩ := h.ordered.exists_gap (p := v.start) (q := v.stop) (fun x hx => by
          have hmeet := hno x hx
          have hlo : vmaExtent.lo x = x.2.start := rfl
          have hhi : vmaExtent.hi x = x.2.stop := rfl
          simp only [Meets,not_and_or] at hmeet
          omega)
      have ho : vmaExtent.Ordered (xs ++ (z,v) :: ys) :=
        ordered_middle.mpr ⟨h.ordered,hlt,hxs,hys⟩
      obtain ⟨m',hm',-,hview⟩ := (h.setFresh hz).treeInsert h0 hz set_same ho
      refine ⟨z,m',_,?_,by simp [h1,h0],.inr ⟨rfl,h0,hlt,hno,rfl,xs,ys,rfl,hview⟩⟩
      simp [h1,h0,hm']
    · obtain ⟨ha,-⟩ := h.here
      exact ⟨0,m,[],by simp [h1,ha],by simp [h1,ha],.inl ⟨rfl,rfl,rfl⟩⟩
  · rw [if_pos (by omega),if_pos (by omega)]
    exact ⟨0,m,[],rfl,rfl,.inl ⟨rfl,rfl,rfl⟩⟩

theorem content_insert (h : vmaExtent.Ordered (xs ++ (z,v) :: ys)) (x : Nat) :
    content (xs ++ (z,v) :: ys) x =
      if v.start ≤ x ∧ x < v.stop then some (v.mapping x) else content (xs ++ ys) x := by
  by_cases hx : v.start ≤ x ∧ x < v.stop
  · rw [if_pos hx]
    exact h.content_of_mem (r := (z,v)) (by simp) hx
  · rw [if_neg hx,content,content,content_append,content_append,← content,← content,
      content_cons,if_neg hx]

theorem content_eq_none_of_apart (h : ∀ x ∈ rs, ¬Meets start stop x) {x : Nat} (h1 : start ≤ x)
    (h2 : x < stop) : content rs x = none := by
  refine content_eq_none.mpr fun y hy hay => h y hy ⟨?_,?_⟩
  · exact Nat.lt_of_le_of_lt hay.1 h2
  · exact Nat.lt_of_le_of_lt h1 hay.2

structure Cut (start stop : Nat) (rs rs' : List (Nat × Vma)) : Prop where
  mapped : ∀ x, content rs' x = content rs x
  keeps : Keeps start stop rs rs'

theorem Cut.refl (start stop : Nat) (rs : List (Nat × Vma)) : Cut start stop rs rs :=
  ⟨fun _ => rfl,fun _ hx _ => hx⟩

theorem Cut.trans {rs' rs'' : List (Nat × Vma)} (h : Cut start stop rs rs')
    (h' : Cut start stop rs' rs'') : Cut start stop rs rs'' :=
  ⟨fun x => (h'.mapped x).trans (h.mapped x),fun x hx hno => h'.keeps x (h.keeps x hx hno) hno⟩

theorem cut_split (hm : Meets start stop (a,v)) (h1 : v.start ≤ cut) (h2 : cut ≤ v.stop) :
    Cut start stop (xs ++ (a,v) :: ys) (xs ++ (a,{ v with stop := cut }) :: (z,tailFrom v cut) :: ys) :=
  ⟨content_split h1 h2,keeps_split hm⟩

/-- A region goes across an address. -/
def Crosses (cut : Nat) (rs : List (Nat × Vma)) : Prop := ∃ x ∈ rs, x.2.start < cut ∧ cut < x.2.stop

theorem crosses_append {cut : Nat} (hps : ∀ x ∈ ps, x.2.stop ≤ cut) : Crosses cut (ps ++ rs) ↔ Crosses cut rs := by
  refine ⟨fun ⟨x,hx,hlt,hgt⟩ => ?_,fun ⟨x,hx,hcross⟩ => ⟨x,mem_append_right _ hx,hcross⟩⟩
  rcases mem_append.mp hx with hx | hx
  · exact absurd hgt (Nat.not_lt.mpr (hps x hx))
  · exact ⟨x,hx,hlt,hgt⟩

theorem cutLeft_spec (h : View m (ps ++ (a,v) :: qs)) (hrange : start < stop) (hps : ∀ x ∈ ps, x.2.stop ≤ start)
    (hm : Meets start stop (a,v)) (hz : z ∉ (ps ++ (a,v) :: qs).map (·.1)) :
    ∃ b m', (if v.start < start then m.split a start z else some (a,m)) = some (b,m') ∧
      (b = 0 ∧ m' = m ∧ (if v.start < start then m.splitMoves a start z else []) = [] ∧
        v.start < start ∧ z = 0 ∨
        b ≠ 0 ∧ ∃ ws u zs, View m' (ws ++ (b,u) :: zs) ∧
        (∀ x ∈ ws, x.2.stop ≤ start) ∧ start ≤ u.start ∧ u.start < stop ∧
        Cut start stop (ps ++ (a,v) :: qs) (ws ++ (b,u) :: zs) ∧
        Counts (ps ++ (a,v) :: qs) (if v.start < start then m.splitMoves a start z else []) (ws ++ (b,u) :: zs) ∧
        (∀ c, c ∉ (ps ++ (a,v) :: qs).map (·.1) → c ≠ z → c ∉ (ws ++ (b,u) :: zs).map (·.1)) ∧
        (v.start < start → z ≠ 0) ∧
        ∀ cut, start < cut → (Crosses cut ((b,u) :: zs) ↔ Crosses cut (ps ++ (a,v) :: qs))) := by
  obtain ⟨ha,-⟩ := h.here
  have hbefore : ∀ cut, start < cut → (Crosses cut (ps ++ (a,v) :: qs) ↔ Crosses cut ((a,v) :: qs)) :=
    fun cut hcut => crosses_append fun x hx => (hps x hx).trans hcut.le
  have hstop : v.start < stop := hm.1
  have hstart : start < v.stop := hm.2
  by_cases hlt : v.start < start
  · rw [if_pos hlt,if_pos hlt]
    obtain ⟨m',h1,⟨h0,rfl,hms⟩ | ⟨h0,hview,hcount⟩⟩ := split_spec h hlt hstart hz
    · exact ⟨z,m',h1,.inl ⟨h0,rfl,hms,hlt,h0⟩⟩
    refine ⟨z,m',h1,.inr ⟨h0,ps ++ [(a,{ v with stop := start })],tailFrom v start,qs,
      by simpa using hview,?_,le_rfl,?_,?_,by simpa using hcount,?_,fun _ => h0,fun cut hcut => ?_⟩⟩
    · intro x hx
      rcases mem_append.mp hx with hx | hx
      · exact hps x hx
      · rw [mem_singleton.mp hx]
    · exact hrange
    · simpa using cut_split hm hlt.le hstart.le
    · intro c hc hcz
      simp only [map_append,map_cons,mem_append,mem_cons,not_or] at hc ⊢
      simp [hc,hcz]
    · have hv : v.start < cut := by omega
      rw [hbefore cut hcut]
      simp [Crosses,tailFrom,hcut,hv]
  · rw [if_neg hlt,if_neg hlt]
    exact ⟨a,m,rfl,.inr ⟨ha,ps,v,qs,h,hps,by omega,hstop,.refl _ _ _,.refl _,fun c hc _ => hc,
      fun hlt' => absurd hlt' hlt,fun cut hcut => (hbefore cut hcut).symm⟩⟩

theorem isolate_spec (start stop : Nat) (h : View m rs) (hz : z ∉ rs.map (·.1)) (hk : k ∉ rs.map (·.1))
    (hzk : k = z → k = 0) :
    ∃ b m' rs', m.isolate start stop z k = some (b,m') ∧ View m' rs' ∧
      Cut start stop rs rs' ∧ (b = true → start < stop ∧
        ∀ x ∈ rs', Meets start stop x → start ≤ x.2.start ∧ x.2.stop ≤ stop) ∧
      (∀ c, c ∉ rs.map (·.1) → c ≠ z → c ≠ k → c ∉ rs'.map (·.1)) ∧
      ∃ ms, m.isolateMoves start stop z k = some ms ∧ Counts rs ms rs' := by
  unfold isolate isolateMoves
  by_cases hlt : start < stop
  swap
  · rw [if_pos (by omega),if_pos (by omega)]
    exact ⟨false,m,rs,rfl,h,.refl _ _ _,by simp,fun _ hc _ _ => hc,[],rfl,.refl _⟩
  rw [if_neg (by omega),if_neg (by omega)]
  obtain ⟨a,h1,⟨rfl,hno⟩ | ⟨ps,v,qs,rfl,hps,hm⟩⟩ := h.firstOverlap hlt
  · exact ⟨true,m,rs,by simp [h1],h,.refl _ _ _,fun _ => ⟨hlt,fun x hx hx' => absurd hx' (hno x hx)⟩,
      fun _ hc _ _ => hc,[],by simp [h1],.refl _⟩
  obtain ⟨ha,hv⟩ := h.here
  obtain ⟨b,m1,h2,hcut⟩ := cutLeft_spec h hlt hps hm hz
  simp only [h1,bind_eq_bind,bind_some,if_neg ha,hv,h2]
  rcases hcut with ⟨rfl,rfl,hms,-⟩ | ⟨hb,ws,u,zs,hview,hws,hu,hu',hc,hcount,hfresh,-⟩
  · exact ⟨false,m1,_,rfl,h,.refl _ _ _,by simp,fun _ hc _ _ => hc,[],by rw [hms]; rfl,.refl _⟩
  simp only [if_neg hb]
  have hleft : ∀ x ∈ ws ++ (b,u) :: zs, Meets start stop x → start ≤ x.2.start := by
    intro x hx hmx
    rcases mem_append.mp hx with hx | hx
    · have h4 := hws x hx
      have h5 := hmx.2
      omega
    rcases mem_cons.mp hx with rfl | hx
    · exact hu
    have h4 := hview.middle.2 x hx
    have h5 := hview.inhabited (x := (b,u)) (by simp)
    dsimp only at h5
    omega
  obtain ⟨last,h3,⟨rfl,hno⟩ | ⟨xs,l,ys,heq,hl,hl'⟩⟩ := hview.find (stop-1)
  · refine ⟨true,m1,_,by simp [h3],hview,hc,fun _ => ⟨hlt,fun x hx hmx => ⟨hleft x hx hmx,?_⟩⟩,
      fun c hcr hcz _ => hfresh c hcr hcz,_,by simp [h3],hcount⟩
    by_contra hstop
    have h4 := hmx.1
    exact hno x hx ⟨show x.2.start ≤ stop-1 by omega,show stop-1 < x.2.stop by omega⟩
  rw [heq] at hview hc hcount hleft hfresh
  obtain ⟨hlast,hrl⟩ := hview.here
  simp only [h3,bind_some,if_neg hlast,hrl]
  obtain ⟨hbefore,hafter⟩ := hview.middle
  have hright : ∀ x ∈ xs ++ ys, Meets start stop x → x.2.stop ≤ stop := by
    intro x hx hmx
    rcases mem_append.mp hx with hx | hx
    · have h4 := hbefore x hx
      omega
    have h4 := hafter x hx
    have h5 := hmx.1
    omega
  by_cases hgt : l.stop > stop
  · have hk' : k ∉ (xs ++ (last,l) :: ys).map (·.1) := by
      by_cases hkz : k = z
      · rw [hzk hkz]
        exact hview.zero_notMem
      · exact hfresh k hk hkz
    have hmeet : Meets start stop (last,l) := ⟨show l.start < stop by omega,show start < l.stop by omega⟩
    rw [if_pos hgt,if_pos hgt]
    obtain ⟨m2,h4,⟨h0,rfl,hms⟩ | ⟨h0,hview2,hcount2⟩⟩ := split_spec hview (by omega) hgt hk'
    · exact ⟨false,m2,_,by rw [h4]; simp [h0],hview,hc,by simp,
        fun c hcr hcz _ => hfresh c hcr hcz,_,by rw [hms,append_nil]; rfl,hcount⟩
    refine ⟨true,m2,_,by simp [h4,h0],hview2,
      hc.trans (cut_split hmeet (by omega) hgt.le),fun _ => ⟨hlt,fun x hx hmx => ?_⟩,
      fun c hcr hcz hck => ?_,_,rfl,hcount.trans hcount2⟩
    swap
    · have h6 := hfresh c hcr hcz
      simp only [map_append,map_cons,mem_append,mem_cons,not_or] at h6 ⊢
      simp [h6,hck]
    rcases mem_append.mp hx with hx | hx
    · exact ⟨hleft x (by simp [hx]) hmx,hright x (by simp [hx]) hmx⟩
    rcases mem_cons.mp hx with rfl | hx
    · exact ⟨hleft (last,l) (by simp) hmeet,le_rfl⟩
    rcases mem_cons.mp hx with rfl | hx
    · exact absurd hmx.1 (Nat.lt_irrefl stop)
    · exact ⟨hleft x (by simp [hx]) hmx,hright x (by simp [hx]) hmx⟩
  refine ⟨true,m1,_,by simp [hgt],hview,hc,fun _ => ⟨hlt,fun x hx hmx => ⟨hleft x hx hmx,?_⟩⟩,
    fun c hcr hcz _ => hfresh c hcr hcz,_,by simp [hgt],hcount⟩
  rcases mem_cons.mp (perm_middle.mem_iff.mp hx) with rfl | hx
  · show l.stop ≤ stop
    omega
  · exact hright x hx hmx

/-- How many records end behind `cursor`; the loop of `covers` passes one in each round. -/
def ahead (rs : List (Nat × Vma)) (cursor : Nat) : Nat :=
  rs.countP fun x => decide (cursor < x.2.stop)

theorem ahead_mono (rs : List (Nat × Vma)) {c d : Nat} (h : c ≤ d) : ahead rs d ≤ ahead rs c := by
  refine countP_mono_left fun x _ hx => ?_
  simp only [decide_eq_true_eq] at hx ⊢
  omega

theorem coversFrom_spec {cursor fuel : Nat} (stop : Nat) (h : View m rs)
    (hfuel : ahead rs cursor < fuel) :
    ∃ b, m.coversFrom stop fuel cursor = some b ∧
      (b = true ↔ ∀ x, cursor ≤ x → x < stop → content rs x ≠ none) := by
  induction fuel generalizing cursor with
  | zero => omega
  | succ fuel ih =>
    by_cases hlt : cursor < stop
    swap
    · refine ⟨true,by rw [coversFrom,if_neg hlt],?_⟩
      simp only [true_iff]
      intro x h1 h2
      omega
    obtain ⟨a,h1,⟨rfl,hno⟩ | ⟨xs,v,ys,rfl,hv,hv'⟩⟩ := h.find cursor
    · refine ⟨false,by rw [coversFrom,if_pos hlt,h1]; rfl,?_⟩
      simp only [Bool.false_eq_true,false_iff]
      intro hall
      exact hall cursor (le_rfl) hlt (content_eq_none.mpr hno)
    obtain ⟨ha,hr⟩ := h.here
    have hdec : ahead (xs ++ (a,v) :: ys) v.stop < fuel := by
      have h2 := ahead_mono xs hv'.le
      have h3 := ahead_mono ys hv'.le
      simp only [ahead,countP_append,countP_cons,hv',Nat.lt_irrefl,decide_true,
        decide_false,if_true,Bool.false_eq_true,if_false] at h2 h3 hfuel ⊢
      omega
    obtain ⟨b,hb,hiff⟩ := ih hdec
    refine ⟨b,?_,hiff.trans ?_⟩
    · rw [coversFrom,if_pos hlt,h1]
      have hno : ¬v.stop ≤ cursor := by omega
      simp [ha,hr,hno,hb]
    constructor
    · intro hall x hx hx'
      by_cases hxv : x < v.stop
      · rw [content,h.ordered.content_of_mem (r := (a,v)) (by simp) ⟨Nat.le_trans hv hx,hxv⟩]
        simp
      · exact hall x (by omega) hx'
    · intro hall x hx hx'
      exact hall x (by omega) hx'

theorem covers_spec (h : View m rs) (start stop : Nat) : ∃ b, m.covers start stop = some b ∧
      (b = true ↔ start < stop ∧ ∀ x, start ≤ x → x < stop → content rs x ≠ none) := by
  by_cases hlt : start < stop
  · have hfuel : ahead rs start < m.tree.fuel := by
      have hle : ahead rs start ≤ rs.length := countP_le_length
      rw [h.fuel_eq]
      omega
    obtain ⟨b,h1,hiff⟩ := coversFrom_spec stop h hfuel
    exact ⟨b,by rw [covers,if_neg (by omega),h1],by rw [hiff]; simp [hlt]⟩
  · exact ⟨false,by rw [covers,if_pos (by omega)],by simp [hlt]⟩

def painted (stop : Nat) (prot : BitVec 32) (x : Nat × Vma) : Nat × Vma :=
  if x.2.start < stop then (x.1,{ x.2 with prot := prot }) else x

theorem protectFrom_spec {fuel : Nat} (prot : BitVec 32) (h : View m (xs ++ ys))
    (hfuel : ys.length < fuel) :
    ∃ m', m.protectFrom stop prot fuel (headAddr ys) = some m' ∧
      View m' (xs ++ ys.map (painted stop prot)) := by
  induction ys generalizing m xs fuel with
  | nil =>
    obtain ⟨fuel,rfl⟩ : ∃ n, fuel = n+1 := ⟨fuel-1,by omega⟩
    exact ⟨m,rfl,h⟩
  | cons y ys ih =>
    obtain ⟨a,v⟩ := y
    obtain ⟨fuel,rfl⟩ : ∃ n, fuel = n+1 := ⟨fuel-1,by omega⟩
    obtain ⟨ha,hv⟩ := h.here
    have hhead : headAddr ((a,v) :: ys) = a := rfl
    rw [hhead,protectFrom,if_neg ha]
    simp only [hv,bind_eq_bind,bind_some]
    by_cases hlt : v.start < stop
    · rw [if_pos hlt]
      obtain ⟨h1,h2,h3,h4⟩ := ordered_middle.mp h.ordered
      have hset := h.change (v := { v with prot := prot }) (ordered_middle.mpr ⟨h1,h2,h3,h4⟩)
      rw [hset.advance,bind_some]
      have hset' : View (m.set a { v with prot := prot })
        ((xs ++ [(a,{ v with prot := prot })]) ++ ys) := by simpa using hset
      have hlen : ys.length < fuel := by simpa using hfuel
      obtain ⟨m',h1,hview⟩ := ih hset' hlen
      exact ⟨m',h1,by simpa [painted,hlt] using hview⟩
    -- the records from here on begin behind the range
    have hsame : ((a,v) :: ys).map (painted stop prot) = (a,v) :: ys := by
      refine (map_congr_left fun y hy => ?_).trans (map_id _)
      have hy' : stop ≤ y.2.start := by
        rcases mem_cons.mp hy with rfl | hy
        · exact Nat.le_of_not_lt hlt
        have h1 := h.middle.2 y hy
        have h2 := h.inhabited (x := (a,v)) (by simp)
        dsimp only at h2
        omega
      exact if_neg (Nat.not_lt.mpr hy')
    exact ⟨m,by rw [if_neg hlt],by rw [hsame]; exact h⟩

theorem content_painted (prot : BitVec 32) (h : ∀ y ∈ ys, stop ≤ y.2.start ∨ y.2.stop ≤ stop) (x : Nat) :
    content (ys.map (painted stop prot)) x =
      if x < stop then (content ys x).map fun w => { w with prot := prot } else content ys x := by
  induction ys with
  | nil => simp [content_nil]
  | cons y ys ih =>
    obtain ⟨a,v⟩ := y
    obtain ⟨hy,hys⟩ := forall_mem_cons.mp h
    dsimp only at hy
    rw [map_cons,painted]
    by_cases hlt : v.start < stop
    · rw [if_pos hlt,content_cons,content_cons,ih hys]
      by_cases hx : v.start ≤ x ∧ x < v.stop
      · have hxs : x < stop := by omega
        simp [hx,hxs,Vma.mapping]
      · simp [hx]
    rw [if_neg hlt,content_cons,content_cons,ih hys]
    by_cases hx : v.start ≤ x ∧ x < v.stop
    · have hxs : ¬x < stop := by omega
      simp [hx,hxs]
    · simp [hx]

theorem paint_spec (prot : BitVec 32) (h : View m (xs ++ ys))
    (hxs : ∀ x ∈ xs, x.2.stop ≤ start) (hys : ∀ y ∈ ys, start ≤ y.2.start)
    (hcut : ∀ y ∈ ys, stop ≤ y.2.start ∨ y.2.stop ≤ stop) :
    ∃ m' rs', m.protectFrom stop prot m.tree.fuel (headAddr ys) = some m' ∧ View m' rs' ∧
      Keeps start stop (xs ++ ys) rs' ∧ (∀ x, content rs' x =
        if start ≤ x ∧ x < stop then (content (xs ++ ys) x).map fun w => { w with prot := prot }
        else content (xs ++ ys) x) ∧ Counts (xs ++ ys) [] rs' := by
  have hlen : ys.length < m.tree.fuel := by
    rw [h.fuel_eq,length_append]
    omega
  obtain ⟨m',h1,hview⟩ := protectFrom_spec prot h hlen
  have hback : ∀ y : Nat × Vma, (painted stop prot y).2.backing = y.2.backing := by
    intro y
    unfold painted
    split <;> rfl
  refine ⟨m',_,h1,hview,?_,?_,counts_same (by simp [Function.comp_def,hback])⟩
  · intro x hx hno
    rcases mem_append.mp hx with hx' | hx'
    · exact mem_append_left _ hx'
    have hsame : painted stop prot x = x := by
      refine if_neg fun hlt => hno ⟨hlt,?_⟩
      have h2 := h.inhabited hx
      have h3 := hys x hx'
      omega
    exact mem_append_right _ (hsame ▸ mem_map_of_mem hx')
  intro x
  rw [content,content,content_append,content_append,← content,← content,
    content_painted prot hcut]
  by_cases hx : x < start
  · have hnone : content ys x = none := by
      refine content_eq_none.mpr fun y hy hay => ?_
      have h2 := hys y hy
      have h3 : y.2.start ≤ x := hay.1
      omega
    have hno : ¬start ≤ x := by omega
    simp [hnone,hno]
  have hnone : content xs x = none := by
    refine content_eq_none.mpr fun y hy hay => ?_
    have h2 := hxs y hy
    have h3 : x < y.2.stop := hay.2
    omega
  have hle : start ≤ x := by omega
  simp [hnone,hle]

theorem cutRight_spec (h : View m (xs ++ (b,v) :: ys)) (hk : k ∉ (xs ++ (b,v) :: ys).map (·.1))
    (hv : start ≤ v.start) (hrange : start < stop) :
    ∃ c q m', m.seek (fun r => decide (¬r.start < stop)) (fun r => decide (r.stop > stop))
        m.tree.fuel b = some c ∧
      (if c = 0 then some (b,m) else m.split c stop k) = some (q,m') ∧
      (q = 0 ↔ Crosses stop ((b,v) :: ys) ∧ k = 0) ∧
      (q = 0 ∧ m' = m ∧ (if c = 0 then [] else m.splitMoves c stop k) = [] ∨
        q ≠ 0 ∧ ∃ zs, headAddr zs = b ∧ View m' (xs ++ zs) ∧
        Cut start stop (xs ++ (b,v) :: ys) (xs ++ zs) ∧
        Counts (xs ++ (b,v) :: ys) (if c = 0 then [] else m.splitMoves c stop k) (xs ++ zs) ∧
        (∀ x ∈ zs, start ≤ x.2.start) ∧ ∀ x ∈ zs, stop ≤ x.2.start ∨ x.2.stop ≤ stop) := by
  obtain ⟨hb,-⟩ := h.here
  have hstart : ∀ x ∈ (b,v) :: ys, start ≤ x.2.start := by
    refine forall_mem_cons.mpr ⟨hv,fun x hx => ?_⟩
    have h1 := h.middle.2 x hx
    have h2 := h.inhabited (x := (b,v)) (by simp)
    dsimp only at h2
    omega
  have hhalt : ((b,v) :: ys).Pairwise fun x y => decide (¬x.2.start < stop) = true →
      decide (¬y.2.start < stop) = true := by
    refine (pairwise_append.mp h.ordered.apart).2.1.imp_of_mem fun {x y} hx _ hle => ?_
    have h1 : x.2.stop ≤ y.2.start := hle
    have h2 := h.inhabited (mem_append_right _ hx)
    simp only [decide_eq_true_eq]
    omega
  have hlen : ((b,v) :: ys).length < m.tree.fuel := by
    rw [h.fuel_eq,length_append]
    omega
  obtain ⟨c,h1,hres⟩ := h.seek (fun r => decide (¬r.start < stop))
    (fun r => decide (r.stop > stop)) hhalt hlen
  simp only [decide_eq_true_eq,decide_eq_false_iff_not,Nat.not_lt] at hres
  rcases hres with ⟨rfl,hno⟩ | ⟨ps,w,qs,heq,hps,hw,hw'⟩
  · refine ⟨0,b,m,h1,if_pos rfl,iff_of_false hb fun ⟨⟨x,hx,hlt,hgt⟩,_⟩ => ?_,
      .inr ⟨hb,(b,v) :: ys,rfl,h,.refl _ _ _,.refl _,hstart,hno⟩⟩
    have := hno x hx
    omega
  have hc : c ≠ 0 := h.ne_zero (x := (c,w)) (by rw [heq]; simp)
  have hcross : Crosses stop ((b,v) :: ys) := ⟨(c,w),by rw [heq]; simp,Nat.not_le.mp hw,hw'⟩
  have hheq : xs ++ (b,v) :: ys = (xs ++ ps) ++ (c,w) :: qs := by rw [heq,append_assoc]
  rw [hheq] at h hk ⊢
  have hcw : w.start < stop := by omega
  obtain ⟨m',h2,hsplit⟩ := split_spec h hcw hw' hk
  refine ⟨c,k,m',h1,by rw [if_neg hc,h2],(and_iff_right hcross).symm,?_⟩
  rw [if_neg hc]
  rcases hsplit with hnone | ⟨h0,hview,hcount⟩
  · exact .inl hnone
  have hmeet : Meets start stop (c,w) := ⟨hcw,show start < w.stop by omega⟩
  have hcs : Cut start stop ((xs ++ ps) ++ (c,w) :: qs)
      ((xs ++ ps) ++ (c,{ w with stop := stop }) :: (k,tailFrom w stop) :: qs) :=
    cut_split hmeet hcw.le hw'.le
  refine .inr ⟨h0,ps ++ (c,{ w with stop := stop }) :: (k,tailFrom w stop) :: qs,?_,
    by simpa using hview,by simpa using hcs,by simpa using hcount,?_,?_⟩
  · cases ps with
    | nil => exact (congrArg Prod.fst (List.cons.inj heq).1).symm
    | cons y ps => exact (congrArg Prod.fst (List.cons.inj heq).1).symm
  · rw [heq] at hstart
    intro x hx
    simp only [mem_append,mem_cons] at hx
    rcases hx with hx | rfl | rfl | hx
    · exact hstart x (by simp [hx])
    · exact hstart (c,w) (by simp)
    · exact Nat.le_of_lt hrange
    · exact hstart x (by simp [hx])
  intro x hx
  simp only [mem_append,mem_cons] at hx
  rcases hx with hx | rfl | rfl | hx
  · exact .inr (by have := hps x hx; omega)
  · exact .inr (Nat.le_refl stop)
  · exact .inl (Nat.le_refl stop)
  have h3 := h.middle.2 x hx
  exact .inl (by omega)

theorem setProt_spec (start stop : Nat) (prot : BitVec 32) (h : View m rs) (hz : z ∉ rs.map (·.1))
    (hk : k ∉ rs.map (·.1)) (hzk : k = z → k = 0) :
    ∃ b m' rs', m.setProt start stop prot z k = some (b,m') ∧ View m' rs' ∧
      Keeps start stop rs rs' ∧ (∀ x, content rs' x =
        if b = true ∧ start ≤ x ∧ x < stop then (content rs x).map fun w => { w with prot := prot }
        else content rs x) ∧
      (b = true ↔ (start < stop ∧ ∀ x, start ≤ x → x < stop → content rs x ≠ none) ∧
        (Crosses start rs → z ≠ 0) ∧ (Crosses stop rs → k ≠ 0)) ∧
      ∃ ms, m.setProtMoves start stop z k = some ms ∧ Counts rs ms rs' := by
  obtain ⟨c,h1,hc⟩ := covers_spec h start stop
  unfold setProt setProtMoves
  simp only [h1,bind_eq_bind,bind_some]
  cases c with
  | false =>
    exact ⟨false,m,rs,rfl,h,fun _ hx _ => hx,by simp,
      iff_of_false (by simp) fun hb => Bool.false_ne_true (hc.mpr hb.1),[],rfl,.refl _⟩
  | true =>
    obtain ⟨hlt,hall⟩ := hc.mp rfl
    obtain ⟨a,h2,⟨rfl,hno⟩ | ⟨ps,v,qs,rfl,hv,hv'⟩⟩ := h.find start
    · exact absurd (content_eq_none.mpr hno) (hall start (le_rfl) hlt)
    obtain ⟨ha,hr⟩ := h.here
    have hps : ∀ x ∈ ps, x.2.stop ≤ start := fun x hx => Nat.le_trans (h.middle.1 x hx) hv
    have hfirst : Crosses start (ps ++ (a,v) :: qs) → v.start < start := by
      rw [crosses_append hps]
      rintro ⟨x,hx,hlt',hgt⟩
      rcases mem_cons.mp hx with rfl | hx
      · exact hlt'
      · have := h.middle.2 x hx
        omega
    obtain ⟨b,m1,h3,hcut⟩ := cutLeft_spec h hlt hps ⟨Nat.lt_of_le_of_lt hv hlt,hv'⟩ hz
    simp only [Bool.not_true,Bool.false_eq_true,if_false,h2,bind_some,if_neg ha,hr,h3]
    rcases hcut with ⟨rfl,rfl,hms,hbefore,hz0⟩ | ⟨hb,ws,u,zs,hview,hws,hu,-,hcl,hcountl,hfresh,hz0,hcross⟩
    · exact ⟨false,m1,_,rfl,h,fun _ hx _ => hx,by simp,iff_of_false (by simp) fun hb =>
        hb.2.1 ⟨(a,v),by simp,hbefore,hv'⟩ hz0,[],by rw [hms]; rfl,.refl _⟩
    have hk' : k ∉ (ws ++ (b,u) :: zs).map (·.1) := by
      by_cases hkz : k = z
      · rw [hzk hkz]
        exact hview.zero_notMem
      · exact hfresh k hk hkz
    obtain ⟨d,q,m2,h4,h5,hq0,hright⟩ := cutRight_spec hview hk' hu hlt
    rw [hcross stop hlt] at hq0
    have hmoves : ∀ ms : List (Move Nat), (if d = 0 then some ms else some (ms ++ m1.splitMoves d stop k)) =
        some (ms ++ if d = 0 then [] else m1.splitMoves d stop k) := by
      intro ms
      by_cases hd : d = 0 <;> simp [hd]
    simp only [if_neg hb,h4,h5,Option.bind_some,Option.pure_def,hmoves]
    rcases hright with ⟨rfl,rfl,hms⟩ | ⟨hq,zs',hhead,hview2,hcr,hcountr,hstart,hstop⟩
    · obtain ⟨hstop,hk0⟩ := hq0.mp rfl
      exact ⟨false,m2,_,rfl,hview,hcl.keeps,by simpa using hcl.mapped,iff_of_false (by simp) fun hb =>
        hb.2.2 hstop hk0,_,by rw [hms,append_nil],hcountl⟩
    obtain ⟨m3,rs',h6,hview3,hkeep,hcontent,hcount⟩ := paint_spec prot hview2 hws hstart hstop
    have hcc := hcl.trans hcr
    refine ⟨true,m3,rs',?_,hview3,fun x hx hno => hkeep x (hcc.keeps x hx hno) hno,fun x => ?_,
      iff_of_true rfl ⟨⟨hlt,hall⟩,fun hs => hz0 (hfirst hs),fun hs hk0 => hq (hq0.mpr ⟨hs,hk0⟩)⟩,_,rfl,
      by simpa using (hcountl.trans hcountr).trans hcount⟩
    · rw [hhead] at h6
      simp [hq,h6]
    · simp only [true_and]
      rw [hcontent x,hcc.mapped x]

structure Removed (start stop : Nat) (rs rs' : List (Nat × Vma)) : Prop where
  mapped : ∀ x, content rs' x = if start ≤ x ∧ x < stop then none else content rs x
  keeps : Keeps start stop rs rs'

theorem removed_step {zs rs' : List (Nat × Vma)} (hm : Meets start stop (a,v))
    (hsame : ∀ x, ¬(start ≤ x ∧ x < stop) → content [(a,v)] x = content zs x)
    (h : Removed start stop (ps ++ zs ++ qs) rs') : Removed start stop (ps ++ (a,v) :: qs) rs' := by
  refine ⟨fun x => ?_,fun x hx hno => ?_⟩
  · rw [h.mapped x]
    by_cases hx : start ≤ x ∧ x < stop
    · rw [if_pos hx,if_pos hx]
    rw [if_neg hx,if_neg hx]
    exact (content_congr (hsame x hx)).symm
  rcases mem_cons.mp (perm_middle.mem_iff.mp hx) with rfl | hx
  · exact absurd hm hno
  refine h.keeps x ?_ hno
  rcases mem_append.mp hx with hx | hx <;> simp [hx]

def meeting (start stop : Nat) (rs : List (Nat × Vma)) : Nat :=
  rs.countP fun x => decide (Meets start stop x)

theorem removeFrom_spec {fuel : Nat} (h : View m rs) (hrange : start < stop)
    (hspan : ∀ x ∈ rs, ¬(x.2.start < start ∧ x.2.stop > stop))
    (hfuel : meeting start stop rs < fuel) :
    ∃ m' rs', m.removeFrom start stop fuel 0 = some m' ∧ View m' rs' ∧ Removed start stop rs rs' ∧
      ∃ ms, m.removeFromMoves start stop fuel 0 = some ms ∧ Counts rs ms rs' := by
  induction fuel generalizing m rs with
  | zero => omega
  | succ fuel ih =>
    obtain ⟨a,h1,⟨rfl,hno⟩ | ⟨ps,v,qs,rfl,hps,hm⟩⟩ := h.firstOverlap hrange
    · refine ⟨m,rs,by simp [removeFrom,h1,VmaManager.delete],h,⟨fun x => ?_,fun _ hx _ => hx⟩,[],
        by simp [removeFromMoves,h1,deleteMoves],.refl _⟩
      by_cases hx : start ≤ x ∧ x < stop
      · rw [if_pos hx,content_eq_none_of_apart hno hx.1 hx.2]
      · rw [if_neg hx]
    obtain ⟨ha,hr⟩ := h.here
    have hv := hspan (a,v) (by simp)
    have hm1 : v.start < stop := hm.1
    have hm2 : start < v.stop := hm.2
    dsimp only at hv
    -- what replaces the record does not meet the range, so the rounds left suffice
    have hrec : ∀ {m1 : VmaManager} {zs : List (Nat × Vma)}, View m1 (ps ++ zs ++ qs) →
        (∀ x ∈ zs, ¬Meets start stop x) →
        (∀ x, ¬(start ≤ x ∧ x < stop) → content [(a,v)] x = content zs x) →
        ∃ m' rs', m1.removeFrom start stop fuel 0 = some m' ∧ View m' rs' ∧
          Removed start stop (ps ++ (a,v) :: qs) rs' ∧
          ∃ ms, m1.removeFromMoves start stop fuel 0 = some ms ∧ Counts (ps ++ zs ++ qs) ms rs' := by
      intro m1 zs hview hzs hsame
      have hspan' : ∀ x ∈ ps ++ zs ++ qs, ¬(x.2.start < start ∧ x.2.stop > stop) := by
        intro x hx hx'
        simp only [mem_append] at hx
        rcases hx with (hx | hx) | hx
        · exact hspan x (by simp [hx]) hx'
        · exact hzs x hx ⟨by omega,by omega⟩
        · exact hspan x (by simp [hx]) hx'
      have hzero : meeting start stop zs = 0 := countP_eq_zero.mpr (by simpa using hzs)
      have hfuel' : meeting start stop (ps ++ zs ++ qs) < fuel := by
        simp only [meeting,countP_append,countP_cons,hm,decide_true,if_true] at hfuel hzero ⊢
        omega
      obtain ⟨m',rs',h2,hview',hrem,hms⟩ := ih hview hspan' hfuel'
      exact ⟨m',rs',h2,hview',removed_step hm hsame hrem,hms⟩
    -- a record that is only cut keeps its reference
    have hcut : ∀ {w : Vma} {rs' ms}, Counts (ps ++ [(a,w)] ++ qs) ms rs' → w.backing = v.backing →
        Counts (ps ++ (a,v) :: qs) ms rs' := by
      intro w rs' ms hcount hw
      have hsame : Counts (ps ++ (a,v) :: qs) [] (ps ++ [(a,w)] ++ qs) := counts_same (by simp [hw])
      exact hsame.trans hcount
    rw [removeFrom,removeFromMoves]
    simp only [h1,bind_eq_bind,bind_some,if_neg ha,hr]
    by_cases hin : v.start ≥ start ∧ v.stop ≤ stop
    · obtain ⟨m1,h2,hreg,hview⟩ := h.treeRemove
      have hnot : a ∉ (ps ++ qs).map (·.1) := by
        have hn := h.nodup
        rw [map_append,map_cons] at hn
        rw [map_append]
        exact (nodup_cons.mp (nodup_middle.mp hn)).1
      have hdel : View (m1.delete a) (ps ++ [] ++ qs) := by simpa using hview.delete hnot
      obtain ⟨m',rs',h3,hview',hrem,ms,h4,hcount⟩ := hrec hdel (by simp) (fun x hx => by
        rw [content_cons,content_nil,if_neg (by omega)])
      have hgone : m1.deleteMoves a = dropMove v.backing := by simp [deleteMoves,ha,hreg,hr]
      refine ⟨m',rs',by simp [hin,h2,h3],hview',hrem,dropMove v.backing ++ ms,by simp [hin,h2,h4,hgone],
        Counts.trans (counts_drop ?_) hcount⟩
      simp
    obtain ⟨hbefore,hafter⟩ := h.middle
    obtain ⟨hrest,-⟩ := ordered_middle.mp h.ordered
    by_cases hlt : v.start < start
    · have hstop : ¬v.stop > stop := by omega
      have ho : vmaExtent.Ordered (ps ++ (a,{ v with stop := start }) :: qs) := by
        refine ordered_middle.mpr ⟨hrest,hlt,hbefore,fun y hy => ?_⟩
        exact Nat.le_trans hm2.le (hafter y hy)
      have hset : View (m.set a { v with stop := start })
          (ps ++ [(a,{ v with stop := start })] ++ qs) := by simpa using h.change ho
      obtain ⟨m',rs',h3,hview',hrem,ms,h4,hcount⟩ := hrec hset (by simp [Meets]) (fun x hx => by
          simp only [content_cons,content_nil]
          by_cases hxs : x < start
          · simp [hxs,show x < v.stop by omega,Vma.mapping]
          · simp [hxs,show ¬x < v.stop by omega])
      have hge : ¬v.start ≥ start := by omega
      exact ⟨m',rs',by simpa [hge,hlt,hstop] using h3,hview',hrem,ms,by simpa [hge,hlt,hstop] using h4,hcut hcount rfl⟩
    have hstop : ¬v.stop ≤ stop := by omega
    have ho : vmaExtent.Ordered (ps ++ (a,tailFrom v stop) :: qs) := by
      refine ordered_middle.mpr ⟨hrest,Nat.lt_of_not_le hstop,fun x hx => ?_,hafter⟩
      exact Nat.le_trans (hbefore x hx) hm1.le
    have hset : View (m.set a (tailFrom v stop)) (ps ++ [(a,tailFrom v stop)] ++ qs) := by
      simpa using h.change ho
    obtain ⟨m',rs',h3,hview',hrem,ms,h4,hcount⟩ := hrec hset (by simp [Meets,tailFrom]) (fun x hx => by
        simp only [content_cons,content_nil]
        by_cases hxs : stop ≤ x
        · rw [mapping_tailFrom hm1.le hxs]
          simp [tailFrom,hxs,show v.start ≤ x by omega]
        · simp [tailFrom,hxs,show ¬v.start ≤ x by omega])
    exact ⟨m',rs',by simpa [hlt,hstop] using h3,hview',hrem,ms,by simpa [hlt,hstop] using h4,hcut hcount rfl⟩

theorem span_round (h : View m (ps ++ (a,v) :: qs)) (hrange : start < stop)
    (h1 : v.start < start) (h2 : stop < v.stop) (hz : z ∉ (ps ++ (a,v) :: qs).map (·.1))
    (h0 : z ≠ 0) :
    (m.set z (tailFrom v stop)).firstOverlap start stop = some a ∧
      (m.set z (tailFrom v stop)).regions a = some v ∧
      ∃ m1, ((m.set z (tailFrom v stop)).set a { v with stop := start }).treeInsert z = some m1 ∧
        View m1 (ps ++ [(a,{ v with stop := start }),(z,tailFrom v stop)] ++ qs) ∧
        ∀ x ∈ ps ++ [(a,{ v with stop := start }),(z,tailFrom v stop)] ++ qs, ¬Meets start stop x := by
  have hm : Meets start stop (a,v) := ⟨show v.start < stop by omega,show start < v.stop by omega⟩
  have hfresh := h.setFresh (v := tailFrom v stop) hz
  obtain ⟨hbefore,hafter⟩ := h.middle
  obtain ⟨hrest,-⟩ := ordered_middle.mp h.ordered
  -- no other record meets the range
  have hothers : ∀ x ∈ ps ++ qs, ¬Meets start stop x := by
    intro x hx hmx
    have h3 := hmx.1
    have h4 := hmx.2
    rcases mem_append.mp hx with hx | hx
    · have h5 := hbefore x hx
      omega
    · have h5 := hafter x hx
      omega
  have hfirst : (m.set z (tailFrom v stop)).firstOverlap start stop = some a := by
    obtain ⟨b,h3,⟨-,hno⟩ | ⟨xs,u,ys,heq,-,hmu⟩⟩ := hfresh.firstOverlap hrange
    · exact absurd hm (hno (a,v) (by simp))
    have hbu : (b,u) ∈ ps ++ (a,v) :: qs := by rw [heq]; simp
    rcases mem_cons.mp (perm_middle.mem_iff.mp hbu) with heq' | hbu
    · rw [h3,(Prod.mk.inj heq').1]
    · exact absurd hmu (hothers _ hbu)
  have ho : vmaExtent.Ordered (ps ++ (a,{ v with stop := start }) :: (z,tailFrom v stop) :: qs) := by
    have htail : vmaExtent.Ordered (ps ++ (z,tailFrom v stop) :: qs) := by
      refine ordered_middle.mpr ⟨hrest,h2,fun x hx => ?_,hafter⟩
      exact Nat.le_trans (hbefore x hx) (Nat.le_of_lt hm.1)
    refine ordered_middle.mpr ⟨htail,h1,hbefore,forall_mem_cons.mpr
      ⟨Nat.le_of_lt hrange,fun y hy => Nat.le_trans (Nat.le_of_lt hm.2) (hafter y hy)⟩⟩
  obtain ⟨m1,h3,hview⟩ := h.divide h0 hz ho
  refine ⟨hfirst,hfresh.regions (a,v) (by simp),m1,h3,by simpa using hview,fun x hx => ?_⟩
  simp only [mem_append,mem_cons,not_mem_nil,or_false] at hx
  rcases hx with (hx | rfl | rfl) | hx
  · exact hothers x (mem_append_left _ hx)
  · simp [Meets]
  · simp [Meets,tailFrom]
  · exact hothers x (mem_append_right _ hx)

theorem removeFrom_span (fuel : Nat) (h : View m (ps ++ (a,v) :: qs)) (hrange : start < stop)
    (h1 : v.start < start) (h2 : stop < v.stop) (hz : z ∉ (ps ++ (a,v) :: qs).map (·.1))
    (h0 : z ≠ 0) :
    ∃ m' rs', (m.set z (tailFrom v stop)).removeFrom start stop (fuel+2) z = some m' ∧
      View m' rs' ∧ Removed start stop (ps ++ (a,v) :: qs) rs' ∧
      ∃ ms, (m.set z (tailFrom v stop)).removeFromMoves start stop (fuel+2) z = some ms ∧
        Counts (ps ++ (a,v) :: qs) (holdMove v.backing ++ ms) rs' := by
  obtain ⟨ha,-⟩ := h.here
  have hm : Meets start stop (a,v) := ⟨show v.start < stop by omega,show start < v.stop by omega⟩
  obtain ⟨hfirst,hr,m1,h3,hview,hno⟩ := span_round h hrange h1 h2 hz h0
  have hzero : meeting start stop (ps ++ [(a,{ v with stop := start }),(z,tailFrom v stop)] ++ qs) <
      fuel+1 := by
    rw [meeting,countP_eq_zero.mpr (by simpa using hno)]
    omega
  obtain ⟨m',rs',h4,hres,hrem,ms,h5,hcount⟩ := removeFrom_spec hview hrange
    (fun x hx hx' => hno x hx ⟨by omega,by omega⟩) hzero
  have hge : ¬v.start ≥ start := by omega
  refine ⟨m',rs',?_,hres,removed_step hm (fun x hx => ?_) hrem,ms,?_,Counts.trans (counts_hold ?_ ?_) hcount⟩
  · rw [removeFrom]
    simp only [hfirst,bind_eq_bind,bind_some,if_neg ha,hr]
    simpa [hge,h1,h2,h3] using h4
  rotate_left
  · rw [removeFromMoves]
    simp only [hfirst,bind_eq_bind,bind_some,if_neg ha,hr]
    simpa [hge,h1,h2,h3] using h5
  · simp
  · simp [tailFrom]
  simp only [content_cons,content_nil]
  by_cases hxs : stop ≤ x
  · rw [mapping_tailFrom (Nat.le_of_lt hm.1) hxs]
    simp [tailFrom,hxs,show v.start ≤ x by omega,show ¬x < start by omega]
  · simp [tailFrom,Vma.mapping,hxs,show x < start by omega,show x < v.stop by omega]

theorem remove_spec {length : Nat} (h : View m rs) (hz : z ∉ rs.map (·.1))
    (hstart : start < 2^64) (hlength : length < 2^64) :
    ∃ b m' rs', m.remove start length z = some (b,m') ∧ View m' rs' ∧
      (b = true ∧ Removed start (start+length) rs rs' ∨ b = false ∧ rs' = rs ∧
        (2^64 ≤ start + length ∨ z = 0 ∧ ∃ x ∈ rs, x.2.start < start ∧ start + length < x.2.stop)) ∧
      ∃ ms, m.removeMoves start length z = some ms ∧ Counts rs ms rs' := by
  unfold remove removeMoves
  by_cases h0 : length = 0
  · subst h0
    refine ⟨true,m,rs,rfl,h,.inl ⟨rfl,fun x => ?_,fun _ hx _ => hx⟩,[],rfl,.refl _⟩
    rw [if_neg (by omega)]
  rw [if_neg h0,if_neg h0]
  by_cases hover : 2^64 ≤ start + length
  · have hwrap : (start + length) % 2^64 < start := by omega
    rw [if_pos hwrap,if_pos hwrap]
    exact ⟨false,m,rs,rfl,h,.inr ⟨rfl,rfl,.inl hover⟩,[],rfl,.refl _⟩
  have hmod : (start + length) % 2^64 = start + length := Nat.mod_eq_of_lt (by omega)
  rw [hmod,if_neg (by omega),if_neg (by omega)]
  have hrange : start < start + length := by omega
  generalize start + length = stop at hrange hover
  have hlen : rs.length < m.tree.fuel := by rw [h.fuel_eq]; omega
  have h' : View m ([] ++ rs) := h
  obtain ⟨a,h1,hres⟩ := h'.seek (fun r => decide (r.start ≥ stop))
    (fun r => decide (r.start < start) && decide (r.stop > stop)) (h.halt_mono stop) hlen
  simp only [h.first,h1,bind_eq_bind,bind_some]
  simp only [decide_eq_true_eq,Bool.and_eq_true,Bool.and_eq_false_iff,decide_eq_false_iff_not] at hres
  rcases hres with ⟨rfl,hno⟩ | ⟨ps,v,qs,rfl,-,-,hv,hv'⟩
  · have hspan : ∀ x ∈ rs, ¬(x.2.start < start ∧ x.2.stop > stop) := by
      intro x hx hx'
      have := hno x hx
      omega
    have hfuel : meeting start stop rs < m.tree.fuel + 1 := by
      have hle : meeting start stop rs ≤ rs.length := countP_le_length
      omega
    obtain ⟨m',rs',h2,hview,hrem,ms,h3,hcount⟩ := removeFrom_spec h hrange hspan hfuel
    exact ⟨true,m',rs',by simp [h2],hview,.inl ⟨rfl,hrem⟩,ms,by simpa using h3,hcount⟩
  obtain ⟨ha,hr⟩ := h.here
  rw [if_neg ha,if_neg ha]
  by_cases hz0 : z = 0
  · exact ⟨false,m,_,by rw [if_pos hz0]; rfl,h,.inr ⟨rfl,rfl,.inr ⟨hz0,(a,v),by simp,hv,hv'⟩⟩,[],
      by rw [if_pos hz0]; rfl,.refl _⟩
  have hfuel : m.tree.fuel + 1 = (ps ++ (a,v) :: qs).length + 2 := by rw [h.fuel_eq]
  obtain ⟨m',rs',h2,hview,hrem,ms,h3,hcount⟩ :=
    removeFrom_span (ps ++ (a,v) :: qs).length h hrange hv hv' hz hz0
  rw [if_neg hz0,if_neg hz0,hfuel]
  simp only [hr,bind_some,h2,h3]
  exact ⟨true,m',rs',rfl,hview,.inl ⟨rfl,hrem⟩,_,rfl,hcount⟩

end VmaManager

namespace VmaManager

def records (m : VmaManager) : List (Nat × Vma) :=
  (m.tree.walk.getD []).filterMap fun a => (m.regions a).map ((a,·))

def mapping (m : VmaManager) : Nat → Option Mapping := vmaExtent.content m.records

theorem View.records {m : VmaManager} {rs : List (Nat × Vma)} (h : View m rs) : m.records = rs := by
  obtain ⟨w,hw,hin⟩ := h.holds
  rw [VmaManager.records,hw.walk,hin,getD_some,List.filterMap_map]
  refine (List.filterMap_congr fun x hx => ?_).trans (List.filterMap_some)
  simp [h.regions x hx]

inductive Event where
  | insert (start stop : UInt64) (prot flags : BitVec 32) (fd : Int) (offset : BitVec 64)
      (backing new : Nat)
  | remove (start length : UInt64) (new : Nat)
  | setProt (start stop : UInt64) (prot : BitVec 32) (new new' : Nat)
  | isolate (start stop : UInt64) (new new' : Nat)

def step (m : VmaManager) : Event → Option (Bool × VmaManager)
  | .insert start stop prot flags fd offset backing new =>
    (m.insert ⟨start.toNat,stop.toNat,prot,flags,fd,offset,backing⟩ new).map fun r =>
      (decide (r.1 ≠ 0),r.2)
  | .remove start length new => m.remove start.toNat length.toNat new
  | .setProt start stop prot new new' => m.setProt start.toNat stop.toNat prot new new'
  | .isolate start stop new new' => m.isolate start.toNat stop.toNat new new'

def machine : Machine (Option VmaManager) Event where
  initial := some init
  step := fun o e => o.bind fun m => (m.step e).map (·.2)

def Valid (o : Option VmaManager) (e : Event) : Prop :=
  match o, e with
  | none, _ => True
  | some m, .insert _ _ _ _ _ _ _ new => new ∉ m.tree.nodes
  | some m, .remove _ _ new => new ∉ m.tree.nodes
  | some m, .setProt _ _ _ new new' =>
    new ∉ m.tree.nodes ∧ new' ∉ m.tree.nodes ∧ (new' = new → new' = 0)
  | some m, .isolate _ _ new new' =>
    new ∉ m.tree.nodes ∧ new' ∉ m.tree.nodes ∧ (new' = new → new' = 0)

instance : (o : Option VmaManager) → (e : Event) → Decidable (Valid o e)
  | none, _ => .isTrue trivial
  | some m, .insert _ _ _ _ _ _ _ new => inferInstanceAs (Decidable (new ∉ m.tree.nodes))
  | some m, .remove _ _ new => inferInstanceAs (Decidable (new ∉ m.tree.nodes))
  | some m, .setProt _ _ _ new new' => inferInstanceAs (Decidable
      (new ∉ m.tree.nodes ∧ new' ∉ m.tree.nodes ∧ (new' = new → new' = 0)))
  | some m, .isolate _ _ new new' => inferInstanceAs (Decidable
      (new ∉ m.tree.nodes ∧ new' ∉ m.tree.nodes ∧ (new' = new → new' = 0)))

def Event.effect (f : Nat → Option Mapping) : Event → Nat → Option Mapping
  | .insert start stop prot flags fd offset backing _, a =>
    if start.toNat ≤ a ∧ a < stop.toNat then
      some ⟨prot,flags,fd,backing,offset + BitVec.ofNat 64 (a - start.toNat)⟩
    else f a
  | .remove start length _, a =>
    if start.toNat ≤ a ∧ a < start.toNat + length.toNat then none else f a
  | .setProt start stop prot _ _, a =>
    if start.toNat ≤ a ∧ a < stop.toNat then (f a).map fun w => { w with prot := prot } else f a
  | .isolate _ _ _ _, a => f a

def Event.claims : Event → Nat → Prop
  | .insert start stop _ _ _ _ _ _, a => start.toNat ≤ a ∧ a < stop.toNat
  | _, _ => False

variable {m : VmaManager} {rs : List (Nat × Vma)}

theorem step_view (h : View m rs) {e : Event} (he : Valid (some m) e) :
    ∃ ok m' rs', m.step e = some (ok,m') ∧ View m' rs' ∧
      (∀ a, content rs' a = if ok = true then e.effect (content rs) a else content rs a) ∧
      (ok = true → ∀ a, e.claims a → content rs a = none) := by
  have hnode : ∀ {a}, a ∉ m.tree.nodes → a ∉ rs.map (·.1) := fun ha hm => ha (h.mem_nodes.mpr hm)
  cases e with
  | insert start stop prot flags fd offset backing new =>
    obtain ⟨b,m',_,h1,-,hres⟩ := insert_spec (v := ⟨start.toNat,stop.toNat,prot,flags,fd,offset,backing⟩)
      h (hnode he)
    rcases hres with ⟨rfl,rfl,-⟩ | ⟨rfl,h0,hlt,hno,-,xs,ys,rfl,hview⟩
    · exact ⟨false,m',rs,by simp [step,h1],h,by simp,by simp⟩
    refine ⟨true,m',_,by simp [step,h1,h0],hview,fun a => ?_,fun _ a ha => ?_⟩
    · rw [content_insert hview.ordered]
      rfl
    · exact content_eq_none_of_apart hno ha.1 ha.2
  | remove start length new =>
    obtain ⟨b,m',rs',h1,hview,⟨rfl,hrem⟩ | ⟨rfl,rfl,-⟩,-⟩ :=
      remove_spec h (hnode he) start.toNat_lt length.toNat_lt
    · exact ⟨true,m',rs',h1,hview,by simpa [Event.effect] using hrem.mapped,fun _ a ha => ha.elim⟩
    · exact ⟨false,m',_,h1,hview,by simp,fun _ a ha => ha.elim⟩
  | setProt start stop prot new new' =>
    obtain ⟨b,m',rs',h1,hview,-,hc,-⟩ := setProt_spec start.toNat stop.toNat prot h (hnode he.1) (hnode he.2.1) he.2.2
    refine ⟨b,m',rs',h1,hview,fun a => ?_,fun _ a ha => ha.elim⟩
    rw [hc a]
    cases b <;> simp [Event.effect]
  | isolate start stop new new' =>
    obtain ⟨b,m',rs',h1,hview,hcut,-⟩ := isolate_spec start.toNat stop.toNat h (hnode he.1) (hnode he.2.1) he.2.2
    refine ⟨b,m',rs',h1,hview,fun a => ?_,fun _ a ha => ha.elim⟩
    rw [hcut.mapped a]
    cases b <;> simp [Event.effect]

theorem run_view (es : List Event) (hok : machine.Along Valid machine.initial es) :
    ∃ m rs, machine.run es = some m ∧ View m rs := by
  refine machine.runFrom_invariant Valid (I := fun o => ∃ m rs, o = some m ∧ View m rs) ?_ ?_ es hok
  · rintro o e ⟨m,rs,rfl,h⟩ he
    obtain ⟨ok,m',rs',h1,h',-⟩ := step_view h he
    exact ⟨m',rs',by simp [machine,h1],h'⟩
  · exact ⟨init,[],rfl,view_init⟩

end VmaManager

open VmaManager

/-- After every sequence of calls, with any allocations failing, the regions are not empty and lie apart, and `find`
and `covers` answer as the map says. Every further call succeeds with exactly its effect on the map, or fails and
leaves it. -/
theorem vma_refinement (es : List Event) (hok : machine.Along Valid machine.initial es) :
    ∃ m, machine.run es = some m ∧ (∀ x ∈ m.records, x.2.start < x.2.stop) ∧
      m.records.Pairwise (fun x y => x.2.stop ≤ y.2.start) ∧
      (∀ a, ∃ n, m.find a = some n ∧ (n = 0 ∧ m.mapping a = none ∨
        n ≠ 0 ∧ ∃ v, m.regions n = some v ∧ v.start ≤ a ∧ a < v.stop ∧
          m.mapping a = some (v.mapping a))) ∧
      (∀ start stop, ∃ b, m.covers start stop = some b ∧ (b = true ↔
        start < stop ∧ ∀ a, start ≤ a → a < stop → m.mapping a ≠ none)) ∧
      ∀ e, Valid (some m) e → ∃ ok m', m.step e = some (ok,m') ∧ machine.run (es ++ [e]) = some m' ∧
        m'.mapping = (if ok = true then e.effect m.mapping else m.mapping) ∧
        (ok = true → ∀ a, e.claims a → m.mapping a = none) := by
  obtain ⟨m,rs,hrun,h⟩ := run_view es hok
  have hmap : m.mapping = content rs := by rw [mapping,h.records]
  refine ⟨m,hrun,?_,?_,fun a => ?_,fun start stop => ?_,fun e he => ?_⟩
  · rw [h.records]
    exact fun x hx => h.inhabited hx
  · rw [h.records]
    exact h.ordered.apart
  · rw [hmap]
    obtain ⟨n,h1,⟨h0,hno⟩ | ⟨xs,v,ys,rfl,hv,hv'⟩⟩ := h.find a
    · exact ⟨n,h1,.inl ⟨h0,Extent.content_eq_none.mpr hno⟩⟩
    have hmem : (n,v) ∈ xs ++ (n,v) :: ys := by simp
    exact ⟨n,h1,.inr ⟨h.ne_zero hmem,v,h.regions _ hmem,hv,hv', h.ordered.content_of_mem hmem ⟨hv,hv'⟩⟩⟩
  · rw [hmap]
    exact covers_spec h start stop
  obtain ⟨ok,m',rs',h1,h',hc,hfree⟩ := step_view h he
  refine ⟨ok,m',h1,?_,?_,by rwa [hmap]⟩
  · rw [machine.run_concat,hrun]
    simp [machine,h1]
  funext a
  rw [mapping,h'.records,hmap]
  refine (hc a).trans ?_
  cases ok <;> rfl

/-- The empty range is mapped throughout, but not covered. -/
theorem covers_empty_range : machine.run [] = some init ∧ init.covers 0x1000 0x1000 = some false ∧
    ∀ a, 0x1000 ≤ a → a < 0x1000 → init.mapping a ≠ none := by
  refine ⟨rfl,by decide,fun a h1 h2 => ?_⟩
  omega

namespace VmaManager

def holeAndSplit : List Event :=
  [.insert 0x1000 0x5000 3 0x22 (-1) 0 0 16,.insert 0x8000 0xa000 3 1 4 0x6000 7 32,
    .remove 0x2000 0x1000 48,.setProt 0x9000 0xa000 1 0 0,.setProt 0x9000 0xa000 1 64 0,
    .isolate 0x4000 0x9000 80 0]

end VmaManager

theorem vma_refinement_holeAndSplit : ∃ m, machine.run holeAndSplit = some m ∧
    m.records.Pairwise (fun x y => x.2.stop ≤ y.2.start) ∧
    m.mapping 0x1fff = some ⟨3,0x22,-1,0,0xfff⟩ ∧ m.mapping 0x2000 = none ∧
    m.mapping 0x9000 = some ⟨1,1,4,7,0x7000⟩ := by
  obtain ⟨m,hrun,-,hpair,-⟩ := vma_refinement holeAndSplit (by decide +kernel)
  have hvals : (machine.run holeAndSplit).map
      (fun m => [m.mapping 0x1fff,m.mapping 0x2000,m.mapping 0x9000]) =
      some [some ⟨3,0x22,-1,0,0xfff⟩,none,some ⟨1,1,4,7,0x7000⟩] := by decide +kernel
  rw [hrun] at hvals
  simp only [map_some,some.injEq,List.cons.injEq] at hvals
  exact ⟨m,hrun,hpair,hvals.1,hvals.2.1,hvals.2.2.1⟩

end Rucux.Memory
