import Rucux.Vfs.PathResolution

/-!
The interest lists of epoll instances: `sys_epoll_create`, `sys_epoll_ctl`, the scan of `sys_epoll_wait`, and the
calls that give and take the descriptors they are about.
-/

namespace Rucux.Vfs
open Lib Files Function List

structure Interest where
  fd : Int
  events : BitVec 32
  data : UInt64
  deriving DecidableEq

namespace Interest
variable {list : List Interest} {fd : Int}

/-- The loops of `EPOLL_CTL_DEL` and `EPOLL_CTL_MOD`: the first entry of a descriptor becomes `new`. -/
def edit (fd : Int) (new : List Interest) : List Interest → Int × List Interest
  | [] => (-1,[])
  | x :: list => if x.fd = fd then (0,new ++ list) else ((edit fd new list).1,x :: (edit fd new list).2)

def addTo (list : List Interest) (x : Interest) (memory : Bool) : Int × List Interest :=
  -- `new` is not checked: without memory the head becomes null
  (0,if memory then x :: list else [])

def control (op : Int) (x : Interest) (memory : Bool) (list : List Interest) : Int × List Interest :=
  if op = 1 then addTo list x memory
  else if op = 2 then edit x.fd [] list
  else if op = 3 then edit x.fd [x] list
  else (-1,list)

def revents (status wanted : BitVec 32) : BitVec 32 :=
  (if status &&& 1 ≠ 0 ∧ wanted &&& 1 ≠ 0 then 1 else 0) ||| (if status &&& 4 ≠ 0 ∧ wanted &&& 4 ≠ 0 then 4 else 0) |||
    (if status &&& (8 ||| 16 ||| 32) ≠ 0 then 8 else 0)

/-- One scan of `sys_epoll_wait`, with `ready` events so far: the descriptors, events and data it reports. The
call returns the first scan that reports something. -/
def scan (table : Option (List Entry)) (poll : Int → BitVec 32) (maxevents : Int) :
    Nat → List Interest → List (Int × BitVec 32 × UInt64)
  | _, [] => []
  | ready, x :: list =>
    if ¬(ready : Int) < maxevents then []
    else if (getFd table x.fd).any (·.node ≠ 0) ∧ revents (poll x.fd) x.events ≠ 0 then
      (x.fd,revents (poll x.fd) x.events,x.data) :: scan table poll maxevents (ready + 1) list
    else scan table poll maxevents ready list

def find (list : List Interest) (fd : Int) : Option Interest := find? (fun x => decide (x.fd = fd)) list

def fds (list : List Interest) : List Int := list.map Interest.fd

@[simp] theorem fds_cons {x : Interest} : fds (x :: list) = x.fd :: fds list := rfl

theorem find_cons {x : Interest} : find (x :: list) fd = if x.fd = fd then some x else find list fd := by
  rw [find,find?_cons]
  by_cases h : x.fd = fd <;> simp [h,find]

theorem find_eq_none : find list fd = none ↔ fd ∉ fds list := by
  simp [find,fds]

theorem edit_eq {new : List Interest} (h : fd ∉ fds list) : edit fd new list = (-1,list) := by
  induction list with
  | nil => rfl
  | cons x list ih =>
    rw [fds_cons,mem_cons,not_or] at h
    rw [edit,if_neg (Ne.symm h.1),ih h.2]

theorem edit_spec (h : (fds list).Nodup) {new : List Interest} (hnew : new = [] ∨ ∃ x : Interest, x.fd = fd ∧ new = [x])
    (hin : fd ∈ fds list) :
    (edit fd new list).1 = 0 ∧ (fds (edit fd new list).2).Nodup ∧
    (∀ g, find (edit fd new list).2 g = if g = fd then find new g else find list g) ∧
    ∀ g, g ∈ fds (edit fd new list).2 → g ∈ fds list := by
  induction list with
  | nil => cases hin
  | cons x list ih =>
    obtain ⟨hx,hd⟩ := nodup_cons.mp h
    rw [Interest.edit]
    by_cases he : x.fd = fd
    · rw [if_pos he]
      rw [he] at hx
      have hnone := find_eq_none.mpr hx
      obtain rfl | ⟨y,hy,rfl⟩ := hnew
      · refine ⟨rfl,hd,fun g => ?_,fun g hg => mem_cons_of_mem _ hg⟩
        rw [nil_append,find_cons,he]
        by_cases hg : g = fd
        · rw [if_pos hg,hg,hnone]
          rfl
        · rw [if_neg hg,if_neg (Ne.symm hg)]
      refine ⟨rfl,nodup_cons.mpr ⟨hy ▸ hx,hd⟩,fun g => ?_,fun g hg => ?_⟩
      · rw [singleton_append,find_cons,find_cons,find_cons,he,hy]
        by_cases hg : g = fd
        · rw [if_pos hg,if_pos hg.symm,if_pos hg.symm]
        · rw [if_neg hg,if_neg (Ne.symm hg),if_neg (Ne.symm hg)]
      · rw [fds_cons,he]
        rwa [singleton_append,fds_cons,hy] at hg
    rw [if_neg he]
    obtain ⟨h0,hd',hfind,hsub⟩ := ih hd ((mem_cons.mp hin).resolve_left (Ne.symm he))
    refine ⟨h0,nodup_cons.mpr ⟨fun hm => hx (hsub _ hm),hd'⟩,fun g => ?_,fun g hg => ?_⟩
    · rw [find_cons,find_cons,hfind]
      by_cases hg : x.fd = g
      · rw [if_pos hg,if_pos hg,if_neg (hg ▸ he)]
      · rw [if_neg hg,if_neg hg]
    obtain rfl | hg := mem_cons.mp hg
    · exact mem_cons_self
    · exact mem_cons_of_mem _ (hsub g hg)

theorem find_of_mem (h : (fds list).Nodup) {x : Interest} (hx : x ∈ list) : find list x.fd = some x := by
  induction list with
  | nil => cases hx
  | cons y list ih =>
    obtain ⟨hy,hd⟩ := nodup_cons.mp h
    rw [find_cons]
    obtain rfl | hx := mem_cons.mp hx
    · rw [if_pos rfl]
    have hne : y.fd ≠ x.fd := fun he => hy (he ▸ mem_map_of_mem hx)
    rw [if_neg hne,ih hd hx]

end Interest

/-- The tables of the threads, and the interest lists of the nodes that are epoll instances. -/
structure Epolls where
  tables : Nat → Option (List Entry)
  interest : Nat → Option (List Interest)

namespace Epolls
variable {s : Epolls}

def target (s : Epolls) (t : Nat) (epfd : Int) : Option (Nat × List Interest) :=
  match getFd (s.tables t) epfd with
  | none => none
  | some d => if d.node = 0 then none else (s.interest d.node).map fun list => (d.node,list)

def setInterest (s : Epolls) (node : Nat) (list : List Interest) : Epolls :=
  { s with interest := update s.interest node (some list) }

def sysEpollCtl (s : Epolls) (t : Nat) (epfd op : Int) (x : Interest) (memory : Bool) : Int × Epolls :=
  match s.target t epfd with
  | none => (-1,s)
  | some (node,list) =>
    let r := Interest.control op x memory list
    (r.1,s.setInterest node r.2)

def install (s : Epolls) (t node : Nat) (flags : BitVec 32) (memory : Bool) : Epolls :=
  { s with tables := update s.tables t (allocFd (s.tables t) node flags memory).2 }

def sysEpollCreate (s : Epolls) (t node : Nat) (data memory : Bool) : Epolls :=
  if node = 0 ∨ !data then s else (s.setInterest node []).install t node 0 memory

def sysClose (s : Epolls) (t : Nat) (fd : Int) : Epolls :=
  match getFd (s.tables t) fd with
  | none => s
  | some d =>
    if d.node = 0 then s
    else { s with tables := update s.tables t ((s.tables t).map (·.set fd.toNat Entry.empty)) }

inductive Event where
  | create (t node : Nat) (data memory : Bool)
  | open (t node : Nat) (flags : BitVec 32) (memory : Bool)
  | close (t : Nat) (fd : Int)
  | ctl (t : Nat) (epfd op : Int) (x : Interest) (memory : Bool)

def step (s : Epolls) : Event → Epolls
  | .create t node data memory => s.sysEpollCreate t node data memory
  | .open t node flags memory => s.install t node flags memory
  | .close t fd => s.sysClose t fd
  | .ctl t epfd op x memory => (s.sysEpollCtl t epfd op x memory).2

def machine : Machine Epolls Event := ⟨⟨fun _ => none,fun _ => none⟩,step⟩

theorem step_cases (s : Epolls) (e : Event) : (s.step e).interest = s.interest ∨
    (∃ node, (s.step e).interest = update s.interest node (some [])) ∨
    ∃ t epfd op x memory node list, e = .ctl t epfd op x memory ∧ s.target t epfd = some (node,list) ∧
      (s.step e).interest = update s.interest node (some (Interest.control op x memory list).2) := by
  cases e with
  | create t node data memory =>
    rw [step,sysEpollCreate]
    split
    · exact .inl rfl
    · exact .inr (.inl ⟨node,rfl⟩)
  | «open» => exact .inl rfl
  | close t fd =>
    rw [step,sysClose]
    split
    · exact .inl rfl
    · split <;> exact .inl rfl
  | ctl t epfd op x memory =>
    cases ht : s.target t epfd with
    | none => exact .inl (by rw [step,sysEpollCtl,ht])
    | some r => exact .inr (.inr ⟨t,epfd,op,x,memory,r.1,r.2,rfl,ht,by rw [step,sysEpollCtl,ht]; rfl⟩)

theorem target_eq {t node : Nat} {epfd : Int} {list : List Interest} (h : s.target t epfd = some (node,list)) :
    s.interest node = some list := by
  rw [target] at h
  split at h
  · cases h
  split at h
  · cases h
  obtain ⟨l,hl,he⟩ := Option.map_eq_some_iff.mp h
  obtain ⟨rfl,rfl⟩ := Prod.mk.inj he
  exact hl

def Absent (s : Epolls) (node : Nat) (fd : Int) : Prop := ∀ list ∈ s.interest node, fd ∉ Interest.fds list

/-- Descriptors are added when they have no entry and there is memory, and are closed when no instance that the
thread has open has an entry for them. -/
def Careful (s : Epolls) : Event → Prop
  | .ctl t epfd op x memory => op = 1 → memory = true ∧ ∀ r ∈ s.target t epfd, x.fd ∉ Interest.fds r.2
  | .close t fd => ∀ epfd, ∀ r ∈ s.target t epfd, fd ∉ Interest.fds r.2
  | _ => True

/-- An addition goes in; so does a change or a removal of an entry that is there. -/
def applies (op : Int) (x : Interest) (list : List Interest) : Prop :=
  op = 1 ∨ (op = 2 ∨ op = 3) ∧ x.fd ∈ Interest.fds list

theorem control_spec {list : List Interest} (h : (Interest.fds list).Nodup) {op : Int} {x : Interest} {memory : Bool}
    (hop : op = 1 → memory = true ∧ x.fd ∉ Interest.fds list) :
    let r := Interest.control op x memory list
    (Interest.fds r.2).Nodup ∧ (¬applies op x list → r = (-1,list)) ∧
    (applies op x list → r.1 = 0 ∧ ∀ g, Interest.find r.2 g =
      if g = x.fd then (if op = 2 then none else some x) else Interest.find list g) := by
  rw [Interest.control,applies]
  by_cases h1 : op = 1
  · obtain ⟨rfl,hnot⟩ := hop h1
    simp only [h1,if_true,Interest.addTo]
    refine ⟨nodup_cons.mpr ⟨hnot,h⟩,fun hn => absurd (Or.inl trivial) hn,fun _ => ⟨trivial,fun g => ?_⟩⟩
    simp [Interest.find_cons,eq_comm]
  rw [if_neg h1]
  by_cases hin : x.fd ∈ Interest.fds list
  · by_cases h2 : op = 2
    · obtain ⟨h0,hd,hfind,_⟩ := Interest.edit_spec h (.inl rfl) hin
      rw [if_pos h2]
      refine ⟨hd,fun hn => absurd (.inr ⟨.inl h2,hin⟩) hn,fun _ => ⟨h0,fun g => ?_⟩⟩
      rw [hfind,if_pos h2]
      rfl
    rw [if_neg h2]
    by_cases h3 : op = 3
    · obtain ⟨h0,hd,hfind,_⟩ := Interest.edit_spec h (.inr ⟨x,rfl,rfl⟩) hin
      rw [if_pos h3]
      refine ⟨hd,fun hn => absurd (.inr ⟨.inr h3,hin⟩) hn,fun _ => ⟨h0,fun g => ?_⟩⟩
      rw [hfind,if_neg h2]
      by_cases hg : g = x.fd
      · rw [if_pos hg,if_pos hg,Interest.find_cons,if_pos hg.symm]
      · rw [if_neg hg,if_neg hg]
    · rw [if_neg h3]
      exact ⟨h,fun _ => rfl,fun ha => by simp [h1,h2,h3] at ha⟩
  have hedit : ∀ new, Interest.edit x.fd new list = (-1,list) := fun new => Interest.edit_eq hin
  simp only [hedit,ite_self]
  exact ⟨h,fun _ => trivial,fun ha => by simp [h1,hin] at ha⟩

def Adds (s : Epolls) (node : Nat) (fd : Int) : Event → Prop
  | .ctl t epfd op x _ => op = 1 ∧ x.fd = fd ∧ ∃ list, s.target t epfd = some (node,list)
  | _ => False

def Distinct (s : Epolls) : Prop := ∀ node, ∀ list ∈ s.interest node, (Interest.fds list).Nodup

theorem Distinct.step (h : s.Distinct) {e : Event} (hok : s.Careful e) : (s.step e).Distinct ∧
    ∀ node fd, ¬s.Adds node fd e → s.Absent node fd → (s.step e).Absent node fd := by
  -- it is enough to look at the list that is written
  have hwrite : ∀ {made new}, (s.step e).interest = update s.interest made (some new) →
      (Interest.fds new).Nodup → (∀ fd, ¬s.Adds made fd e → s.Absent made fd → fd ∉ Interest.fds new) →
      (s.step e).Distinct ∧ ∀ node fd, ¬s.Adds node fd e → s.Absent node fd → (s.step e).Absent node fd := by
    intro made new he hd hnew
    have hcases : ∀ node, ∀ list ∈ (s.step e).interest node, node = made ∧ list = new ∨ list ∈ s.interest node := by
      intro node list hl
      by_cases hnode : node = made
      · rw [he,hnode,update_self] at hl
        exact .inl ⟨hnode,(Option.some.inj hl).symm⟩
      · rw [he,update_of_ne hnode] at hl
        exact .inr hl
    refine ⟨fun node list hl => ?_,fun node fd ha hn list hl => ?_⟩
    · obtain ⟨-,rfl⟩ | hl := hcases node list hl
      · exact hd
      · exact h node list hl
    obtain ⟨rfl,rfl⟩ | hl := hcases node list hl
    · exact hnew fd ha hn
    · exact hn list hl
  obtain he | ⟨made,he⟩ | ⟨t,epfd,op,x,memory,made,old,rfl,ht,he⟩ := s.step_cases e
  · exact ⟨fun node list hl => h node list (he ▸ hl),fun node fd _ hn list hl => hn list (he ▸ hl)⟩
  · exact hwrite he .nil fun fd _ _ => not_mem_nil
  have hold := target_eq ht
  obtain ⟨hd,hnone,hsome⟩ := control_spec (h made old hold)
    fun h1 => ⟨(hok h1).1,(hok h1).2 (made,old) ht⟩
  refine hwrite he hd fun fd ha hn => ?_
  have hnot := Interest.find_eq_none.mpr (hn old hold)
  rw [← Interest.find_eq_none]
  by_cases happ : applies op x old
  · rw [(hsome happ).2,hnot]
    split
    · rename_i hfd
      obtain h1 | ⟨_,hin⟩ := happ
      · exact absurd ⟨h1,hfd.symm,old,ht⟩ ha
      · exact absurd (hfd ▸ hin) (hn old hold)
    · rfl
  · rw [hnone happ]
    exact hnot

end Epolls
end Rucux.Vfs
