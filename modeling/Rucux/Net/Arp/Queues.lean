import Rucux.Net.Arp.Static
import Rucux.Lib.Slots

/-! What becomes of the packets that are given to `arp_output`. -/

namespace Rucux.Net
open Lib Option Arp
open List hiding Vector

namespace Arp

@[simp] theorem queue_setQueue (s : Arp) (i j : Fin 8) (p : Pending) :
    (s.setQueue i p).queue j = if i = j then p else s.queue j := by
  simp [queue,setQueue,Vector.getElem_set,Fin.val_inj]

@[simp] theorem queue_setEntry (s : Arp) (i : Fin 64) (e : Entry) (j : Fin 8) :
    (s.setEntry i e).queue j = s.queue j := rfl

def held (s : Arp) : List Nat := gather fun i => (s.queue i).packets.addrs

def waiting (s : Arp) (k : Nat × BitVec 32) : List Nat :=
  (Fin.find? fun i => (s.queue i).key = some k).elim [] fun i => (s.queue i).packets.addrs

def Action.transmitted : Action → Option Nat
  | .transmit _ buf _ => some buf
  | _ => none

def Action.freed : Action → Option Nat
  | .free buf => some buf
  | _ => none

def transmitted (as : List Action) : List Nat := as.filterMap Action.transmitted

def freed (as : List Action) : List Nat := as.filterMap Action.freed

@[simp] theorem transmitted_append (as bs : List Action) :
    transmitted (as ++ bs) = transmitted as ++ transmitted bs := filterMap_append

@[simp] theorem freed_append (as bs : List Action) : freed (as ++ bs) = freed as ++ freed bs :=
  filterMap_append

@[simp] theorem transmit_effect (iface : Netif) (mac : Vector UInt8 6) (x : Nat × List UInt8) :
    (transmit iface mac x).transmitted = some x.1 ∧ (transmit iface mac x).freed = none := ⟨rfl,rfl⟩

@[simp] theorem free_effect (buf : Nat) :
    (Action.free buf).transmitted = none ∧ (Action.free buf).freed = some buf := ⟨rfl,rfl⟩

theorem transmitted_flush (iface : Netif) (mac : Vector UInt8 6) (q : LinkedQueue (List UInt8)) :
    transmitted (q.nodes.map (transmit iface mac)) = q.addrs ∧
      freed (q.nodes.map (transmit iface mac)) = [] := by
  simp [transmitted,freed,filterMap_map,LinkedQueue.addrs]

theorem freed_flush (q : LinkedQueue (List UInt8)) :
    transmitted (q.nodes.map fun packet => Action.free packet.1) = [] ∧
      freed (q.nodes.map fun packet => Action.free packet.1) = q.addrs := by
  simp [transmitted,freed,filterMap_map,LinkedQueue.addrs]

theorem request_silent (mem : List Bool) (iface : Netif) (op : BitVec 16) (target : BitVec 32)
    (mac : Vector UInt8 6) : transmitted (request mem iface op target mac).1 = [] ∧
      freed (request mem iface op target mac).1 = [] := by
  unfold request
  split <;> simp [transmitted,freed,Action.transmitted,Action.freed]

/-- A queue counts its packets; a free one is as `{}` leaves it. -/
structure Pending.Ok (p : Pending) : Prop where
  linked : p.packets.Linked
  count : p.count = p.packets.nodes.length
  bound : p.count ≤ packetsPerNeighbor
  free : p.iface = none → p = .zero

@[simp] theorem Pending.key_zero : Pending.zero.key = none := rfl

@[simp] theorem Pending.addrs_zero : Pending.zero.packets.addrs = [] := rfl

theorem Pending.zero_ok : Pending.zero.Ok := by
  refine ⟨LinkedQueue.linked_empty,rfl,?_,fun _ => rfl⟩
  simp [Pending.zero]

/-- `conf` are the interfaces, whose addresses do not change meanwhile. -/
structure Queued (conf : Nat → Netif) (now : Nat) (s : Arp) : Prop where
  each : ∀ i, (s.queue i).Ok
  single : ∀ i j k, (s.queue i).key = some k → (s.queue j).key = some k → i = j
  distinct : s.Distinct now
  apart : ∀ i j k, (s.queue i).key = some k → (s.entry j).key = some k → (s.entry j).valid now = false
  unicast : ∀ i k, (s.queue i).key = some k → broadcast (conf k.1) k.2 = false
  nodup : s.held.Nodup

section
variable {conf : Nat → Netif} {now : Nat} {s : Arp}

theorem held_setQueue (s : Arp) (i : Fin 8) (p : Pending) (b : Nat) :
    (s.setQueue i p).held.count b + (s.queue i).packets.addrs.count b =
      s.held.count b + p.packets.addrs.count b := by
  have hf : (fun j => ((s.setQueue i p).queue j).packets.addrs) =
      Function.update (fun j => (s.queue j).packets.addrs) i p.packets.addrs := by
    funext j
    by_cases h : i = j
    · subst h; simp
    · simp [h,Ne.symm h]
  rw [held,hf]
  exact count_gather_update (fun j => (s.queue j).packets.addrs) i p.packets.addrs b

theorem held_setEntry (s : Arp) (i : Fin 64) (e : Entry) : (s.setEntry i e).held = s.held := rfl

variable {i : Fin 8} {iface : Netif} {ip : BitVec 32}

theorem mem_held {b : Nat} (h : b ∈ (s.queue i).packets.addrs) : b ∈ s.held :=
  mem_gather.mpr ⟨i,h⟩

theorem waiting_eq (h : Queued conf now s) {k : Nat × BitVec 32} (hk : (s.queue i).key = some k) :
    s.waiting k = (s.queue i).packets.addrs := by
  unfold waiting
  cases hf : Fin.find? fun i => decide ((s.queue i).key = some k) with
  | none => simpa [hk] using Fin.find?_eq_none_iff.mp hf i
  | some j =>
    have hj : (s.queue j).key = some k := by simpa using (Fin.find?_eq_some_iff.mp hf).1
    rw [h.single i j k hk hj]
    rfl

theorem waiting_nil {k : Nat × BitVec 32} (h : ∀ i, (s.queue i).key ≠ some k) : s.waiting k = [] := by
  unfold waiting
  have hf : Fin.find? (fun i => decide ((s.queue i).key = some k)) = none :=
    Fin.find?_eq_none_iff.mpr fun i => by simpa using h i
  simp [hf]

section
variable (h : Queued conf now s)
include h

theorem Queued.later {now' : Nat} (hle : now ≤ now') : Queued conf now' s := by
  refine ⟨h.each,h.single,h.distinct.later hle,fun i j k hi hj => ?_,h.unicast,h.nodup⟩
  have hold := h.apart i j k hi hj
  cases hv : (s.entry j).valid now' with
  | false => rfl
  | true => simp [Entry.valid_mono hv hle] at hold

theorem Queued.setQueue {p : Pending} (hp : p.Ok)
    (hone : ∀ j k, j ≠ i → p.key = some k → (s.queue j).key ≠ some k)
    (hapart : ∀ j k, p.key = some k → (s.entry j).key = some k → (s.entry j).valid now = false)
    (hunicast : ∀ k, p.key = some k → broadcast (conf k.1) k.2 = false)
    (hnodup : ∀ b, (s.setQueue i p).held.count b ≤ 1) : Queued conf now (s.setQueue i p) := by
  refine ⟨fun j => ?_,fun j j' k => ?_,h.distinct,fun j e k => ?_,fun j k => ?_,
    nodup_iff_count_le_one.mpr hnodup⟩
  · by_cases hj : i = j
    · simpa [hj] using hp
    · simpa [hj] using h.each j
  · by_cases hj : i = j <;> by_cases hj' : i = j'
    · intros
      exact hj.symm.trans hj'
    · subst hj
      intro hk hk'
      simp only [queue_setQueue,hj',if_true,if_false] at hk hk'
      exact absurd hk' (hone j' k (Ne.symm hj') hk)
    · subst hj'
      intro hk hk'
      simp only [queue_setQueue,hj,if_true,if_false] at hk hk'
      exact absurd hk (hone j k (Ne.symm hj) hk')
    · simpa [hj,hj'] using h.single j j' k
  · by_cases hj : i = j
    · simpa [hj] using hapart e k
    · simpa [hj] using h.apart j e k
  by_cases hj : i = j
  · simpa [hj] using hunicast k
  · simpa [hj] using h.unicast j k

theorem Queued.narrow {p : Pending} (hp : p.Ok) (hkey : ∀ k, p.key = some k → (s.queue i).key = some k)
    (hless : ∀ b, p.packets.addrs.count b ≤ (s.queue i).packets.addrs.count b) :
    Queued conf now (s.setQueue i p) := by
  refine h.setQueue hp (fun j k hj hk hk' => hj (h.single j i k hk' (hkey k hk)))
    (fun j k hk => h.apart i j k (hkey k hk)) (fun k hk => h.unicast i k (hkey k hk)) fun b => ?_
  have hcount := held_setQueue s i p b
  have hone := nodup_iff_count_le_one.mp h.nodup b
  have hb := hless b
  omega

theorem Queued.empty (i : Fin 8) : Queued conf now (s.setQueue i .zero) :=
  h.narrow Pending.zero_ok (by simp) (by simp)

end

theorem waiting_congr {t : Arp} (hs : Queued conf now s) (ht : Queued conf now t)
    {k : Nat × BitVec 32} (hkey : ∀ j, (t.queue j).key = some k ↔ (s.queue j).key = some k)
    (hsame : ∀ j, (s.queue j).key = some k → (t.queue j).packets = (s.queue j).packets) :
    t.waiting k = s.waiting k := by
  by_cases hk : ∃ j, (s.queue j).key = some k
  · obtain ⟨j,hj⟩ := hk
    rw [waiting_eq hs hj,waiting_eq ht ((hkey j).mpr hj),hsame j hj]
  · have hnone : ∀ j, (s.queue j).key ≠ some k := fun j hj => hk ⟨j,hj⟩
    rw [waiting_nil hnone,waiting_nil fun j hj => hnone j ((hkey j).mp hj)]

theorem waiting_empty (h : Queued conf now s) (i : Fin 8) (k : Nat × BitVec 32) :
    (s.setQueue i .zero).waiting k = if (s.queue i).key = some k then [] else s.waiting k := by
  split
  · rename_i hk
    refine waiting_nil fun j hj => ?_
    by_cases hij : i = j
    · simp [hij] at hj
    simp only [queue_setQueue,hij,if_false] at hj
    exact hij (h.single i j k hk hj)
  rename_i hk
  refine waiting_congr h (h.empty i) (fun j => ?_) fun j hj => ?_
  · by_cases hij : i = j
    · subst hij
      simp [hk]
    · simp [hij]
  · have hij : i ≠ j := by rintro rfl; exact hk hj
    simp [hij]

/-- From `s` to `t` with the actions `as`: `new` are the packets the call brings, all for
the neighbour `k?`, and so is what it transmits. -/
structure Handled (conf : Nat → Netif) (now : Nat) (k? : Option (Nat × BitVec 32)) (new : List Nat)
    (s t : Arp) (as : List Action) : Prop where
  queued : Queued conf now t
  kept : ∀ b, new.count b + s.held.count b =
    (transmitted as).count b + (freed as).count b + t.held.count b
  order : ∀ k, ((if k? = some k then transmitted as else []) ++ t.waiting k).Sublist
    (s.waiting k ++ if k? = some k then new else [])
  quiet : k? = none → transmitted as = []

theorem Handled.silent {k? : Option (Nat × BitVec 32)} {new : List Nat} {t : Arp}
    {as bs : List Action} (h : Handled conf now k? new s t as)
    (hb : transmitted bs = [] ∧ freed bs = []) : Handled conf now k? new s t (as ++ bs) := by
  refine ⟨h.queued,?_,?_,?_⟩
  · simpa [hb.1,hb.2] using h.kept
  · simpa [hb.1] using h.order
  · simpa [hb.1] using h.quiet

theorem Handled.refl (h : Queued conf now s) : Handled conf now none [] s s [] :=
  ⟨h,by simp [transmitted,freed],by simp,fun _ => rfl⟩

theorem Handled.trans {t u : Arp} {as bs : List Action} (h : Handled conf now none [] s t as)
    (h' : Handled conf now none [] t u bs) : Handled conf now none [] s u (as ++ bs) := by
  refine ⟨h'.queued,fun b => ?_,fun k => ?_,fun _ => by simp [h.quiet,h'.quiet]⟩
  · have h₁ := h.kept b
    have h₂ := h'.kept b
    simp [count_append] at h₁ h₂ ⊢
    omega
  have h₁ := h.order k
  have h₂ := h'.order k
  simp at h₁ h₂ ⊢
  exact h₂.trans h₁

theorem findPending_some (h : Queued conf now s) :
    s.findPending iface ip = some i ↔ (s.queue i).key = some (iface.id,ip) := by
  constructor
  · intro hf
    simpa using (Fin.find?_eq_some_iff.mp hf).1
  intro hk
  refine Fin.find?_eq_some_iff.mpr ⟨by simpa using hk,fun j hj => ?_⟩
  cases hd : decide ((s.queue j).key = some (iface.id,ip)) with
  | false => rfl
  | true => exact absurd (h.single j i _ (by simpa using hd) hk) (Fin.ne_of_lt hj)

theorem findPending_none (h : s.findPending iface ip = none) (i : Fin 8) :
    (s.queue i).key ≠ some (iface.id,ip) := by
  simpa using Fin.find?_eq_none_iff.mp h i

section
variable (h : Queued conf now s)
include h

theorem Queued.publish (hnone : ∀ i, (s.queue i).key ≠ some (iface.id,ip)) (mac : Vector UInt8 6)
    (expires : Nat) {i : Fin 64} (hd : (s.setEntry i ⟨some iface,ip,mac,expires⟩).Distinct now) :
    Queued conf now (s.setEntry i ⟨some iface,ip,mac,expires⟩) := by
  refine ⟨h.each,h.single,hd,fun j e k hj he => ?_,h.unicast,h.nodup⟩
  by_cases hi : i = e
  · have hk : k = (iface.id,ip) := by
      simpa [hi,Entry.key,eq_comm] using he
    exact absurd (hk ▸ hj) (hnone j)
  · rw [entry_setEntry,if_neg hi] at he ⊢
    exact h.apart j e k hj he

theorem learn_handled (iface : Netif) (ip : BitVec 32) (mac : Vector UInt8 6) (permanent : Bool) :
    Handled conf now (some (iface.id,ip)) [] s (s.learn now iface ip mac permanent).1
      (s.learn now iface ip mac permanent).2 := by
  have hd : (s.learn now iface ip mac permanent).1.Distinct now := h.distinct.learn mac permanent
  unfold learn at hd ⊢
  generalize s.slot now iface ip = a at hd ⊢
  generalize (if permanent = true then 0 else now+60000) = expires at hd ⊢
  cases hf : s.findPending iface ip with
  | none =>
    rw [hf] at hd
    refine ⟨h.publish (findPending_none hf) mac expires hd,?_,?_,by simp⟩
    · simp [transmitted,freed,held_setEntry]
    intro k
    simp [transmitted,show ∀ e, (s.setEntry a e).waiting k = s.waiting k from fun _ => rfl]
  | some i =>
    rw [hf] at hd
    have hk := (findPending_some h).mp hf
    have hnone : ∀ j, ((s.setQueue i .zero).queue j).key ≠ some (iface.id,ip) := by
      intro j hj
      by_cases hij : i = j
      · simp [hij] at hj
      simp only [queue_setQueue,hij,if_false] at hj
      exact hij (h.single i j _ hk hj)
    obtain ⟨ht,hfree⟩ := transmitted_flush iface mac (s.queue i).packets
    -- the queue and the entry are written independently
    change Handled conf now _ [] s ((s.setQueue i .zero).setEntry a ⟨some iface,ip,mac,expires⟩) _
    refine ⟨(h.empty i).publish hnone mac expires hd,fun b => ?_,fun k => ?_,by simp⟩
    · have hcount := held_setQueue s i .zero b
      simp at hcount
      simp [ht,hfree,held_setEntry]
      omega
    change (_ ++ (s.setQueue i .zero).waiting k).Sublist _
    rw [waiting_empty h i k,hk,ht]
    by_cases hkk : (iface.id,ip) = k
    · simp [hkk,waiting_eq h (hkk ▸ hk)]
    · simp [hkk]

theorem resolved_handled (hnone : ∀ i, (s.queue i).key ≠ some (iface.id,ip)) (mac : Vector UInt8 6)
    (buf : Nat) (frame : List UInt8) :
    Handled conf now (some (iface.id,ip)) [buf] s s [transmit iface mac (buf,frame)] := by
  refine ⟨h,?_,fun k => ?_,by simp⟩
  · simp [transmitted,freed]
  by_cases hk : (iface.id,ip) = k
  · simp [hk,transmitted,waiting_nil (hk ▸ hnone)]
  · simp [hk]

theorem dropped_handled (k? : Option (Nat × BitVec 32)) (buf : Nat) :
    Handled conf now k? [buf] s s [.free buf] := by
  refine ⟨h,?_,fun k => ?_,fun _ => rfl⟩
  · simp [transmitted,freed]
  · by_cases hk : k? = some k <;> simp [hk,transmitted]

theorem openQueue_some {p : Pending} {ask : Bool} (ho : s.openQueue now iface ip = some (i,p,ask)) :
    p.key = some (iface.id,ip) ∧ p.packets = (s.queue i).packets ∧
      p.count = (s.queue i).count ∧ p.iface ≠ none ∧
      ((s.queue i).key = some (iface.id,ip) ∧ p = s.queue i ∨
        s.queue i = .zero ∧ ∀ j, (s.queue j).key ≠ some (iface.id,ip)) := by
  unfold openQueue at ho
  split at ho
  · rename_i j hf
    obtain ⟨rfl,rfl,-⟩ := ho
    have hk := (findPending_some h).mp hf
    refine ⟨hk,rfl,rfl,?_,.inl ⟨hk,rfl⟩⟩
    intro hn
    simp [Pending.key,hn] at hk
  rename_i hf
  split at ho
  · simp at ho
  rename_i j hfree
  simp only [some.injEq,Prod.mk.injEq] at ho
  obtain ⟨rfl,rfl,-⟩ := ho
  have hn : (s.queue j).iface = none := by
    simpa using (Fin.find?_eq_some_iff.mp hfree).1
  exact ⟨rfl,rfl,rfl,by simp,.inr ⟨(h.each j).free hn,findPending_none hf⟩⟩

end

def Pending.add (p : Pending) (buf : Nat) (frame : List UInt8) : Pending :=
  { p with packets := p.packets.push buf frame, count := p.count+1 }

@[simp] theorem Pending.key_add (p : Pending) (buf : Nat) (frame : List UInt8) :
    (p.add buf frame).key = p.key := rfl

theorem Pending.Ok.add {p : Pending} (h : p.packets.Linked) (hcount : p.count = p.packets.nodes.length)
    (hroom : p.count < packetsPerNeighbor) (hiface : p.iface ≠ none) {buf : Nat}
    (hbuf : buf ∉ p.packets.addrs) (frame : List UInt8) : (p.add buf frame).Ok := by
  refine ⟨h.push frame hbuf,?_,hroom,fun hn => absurd hn hiface⟩
  simp [Pending.add,h.push_nodes,hcount]

theorem queued_handled (h : Queued conf now s) {p : Pending} {ask : Bool}
    (ho : s.openQueue now iface ip = some (i,p,ask)) (hroom : p.count ≠ packetsPerNeighbor)
    (hfind : s.find now iface ip = none) (hunicast : broadcast (conf iface.id) ip = false) {buf : Nat}
    (hbuf : buf ∉ s.held) (frame : List UInt8) :
    Handled conf now (some (iface.id,ip)) [buf] s (s.setQueue i (p.add buf frame)) [] := by
  obtain ⟨hk,hpackets,hcount,hiface,horigin⟩ := openQueue_some h ho
  have hlinked : p.packets.Linked := by rw [hpackets]; exact (h.each i).linked
  have hlength : p.count = p.packets.nodes.length := by rw [hpackets,hcount]; exact (h.each i).count
  have hless : p.count < packetsPerNeighbor := by
    have hbound := (h.each i).bound
    omega
  have hfresh : buf ∉ p.packets.addrs := by
    rw [hpackets]
    exact fun hb => hbuf (mem_held hb)
  have haddrs : (p.add buf frame).packets.addrs = (s.queue i).packets.addrs ++ [buf] := by
    rw [← hpackets]
    exact hlinked.push_addrs buf frame
  have hheld : ∀ b, (s.setQueue i (p.add buf frame)).held.count b = s.held.count b + [buf].count b := by
    intro b
    have hset := held_setQueue s i (p.add buf frame) b
    rw [haddrs,count_append] at hset
    omega
  have hold : s.waiting (iface.id,ip) = (s.queue i).packets.addrs := by
    rcases horigin with ⟨hki,-⟩ | ⟨hzero,hnone⟩
    · exact waiting_eq h hki
    · simp [waiting_nil hnone,hzero]
  have hkey : ∀ j k, k ≠ (iface.id,ip) →
      (((s.setQueue i (p.add buf frame)).queue j).key = some k ↔ (s.queue j).key = some k) := by
    intro j k hne
    by_cases hij : i = j
    · subst hij
      rcases horigin with ⟨hki,-⟩ | ⟨hzero,-⟩
      · simp [hk,hki]
      · simp [hk,hzero,Ne.symm hne]
    · simp [hij]
  have hqueued : Queued conf now (s.setQueue i (p.add buf frame)) := by
    refine h.setQueue (.add hlinked hlength hless hiface hfresh frame) ?_ ?_ ?_ fun b => ?_
    · simp only [Pending.key_add,hk,some.injEq]
      rintro j _ hj rfl hkj
      rcases horigin with ⟨hki,-⟩ | ⟨-,hnone⟩
      · exact hj (h.single j i _ hkj hki)
      · exact hnone j hkj
    · simp only [Pending.key_add,hk,some.injEq]
      rintro j _ rfl hj
      exact find_none hfind hj
    · simp only [Pending.key_add,hk,some.injEq]
      rintro _ rfl
      exact hunicast
    rw [hheld]
    have hone := nodup_iff_count_le_one.mp h.nodup b
    by_cases hb : buf = b
    · subst hb
      simp [count_eq_zero.mpr hbuf]
    · simpa [hb] using hone
  refine ⟨hqueued,fun b => ?_,fun k => ?_,fun _ => rfl⟩
  · simp [hheld,transmitted,freed]
    omega
  by_cases hkk : (iface.id,ip) = k
  · subst hkk
    have hnew : ((s.setQueue i (p.add buf frame)).queue i).key = some (iface.id,ip) := by
      simpa using hk
    simp [waiting_eq hqueued hnew,hold,haddrs,transmitted]
  have hne : k ≠ (iface.id,ip) := Ne.symm hkk
  have hsame : (s.setQueue i (p.add buf frame)).waiting k = s.waiting k := by
    refine waiting_congr h hqueued (hkey · k hne) fun j hj => ?_
    have hij : i ≠ j := by
      rintro rfl
      have hj' := (hkey i k hne).mpr hj
      simp [hk,hkk] at hj'
    simp [hij]
  simp [hsame,hkk]

theorem setQueue_self (s : Arp) (i : Fin 8) : s.setQueue i (s.queue i) = s := by
  simp [setQueue,queue]

theorem output_handled (h : Queued conf now s) (mem : List Bool) (hconf : conf iface.id = iface)
    {buf : Nat} (hbuf : buf ∉ s.held) (frame : List UInt8) (ip : BitVec 32) :
    Handled conf now (some (iface.id,ip)) [buf] s (s.arpOutput now mem iface buf frame ip).1
      (s.arpOutput now mem iface buf frame ip).2 := by
  unfold arpOutput
  split
  · rename_i hb
    refine resolved_handled h (fun i hk => ?_) _ buf frame
    have hu := h.unicast i _ hk
    simp [hconf,hb] at hu
  rename_i hb
  split
  · rename_i i hf
    obtain ⟨hki,hv⟩ := find_some hf
    refine resolved_handled h (fun j hk => ?_) _ buf frame
    simp [h.apart j i _ hk hki] at hv
  rename_i hf
  split
  · exact dropped_handled h _ buf
  rename_i i p ask ho
  split
  · rename_i hfull
    obtain ⟨-,-,-,-,⟨-,rfl⟩ | ⟨hzero,-⟩⟩ := openQueue_some h ho
    · simpa [setQueue_self] using dropped_handled h (some (iface.id,ip)) buf
    obtain ⟨-,-,hcount,-⟩ := openQueue_some h ho
    simp [hcount,hzero,Pending.zero,packetsPerNeighbor] at hfull
  rename_i hroom
  have hq := queued_handled h ho hroom hf (by simpa [hconf] using hb) hbuf frame
  cases ask with
  | false => exact hq
  | true => exact hq.silent (request_silent mem iface opRequest ip (.replicate 6 0))

theorem tickSlot_handled {t : Tick} (h : Queued conf now t.arp) (reading : Nat) (i : Fin 8) :
    ∃ as, (tickSlot reading t i).actions = t.actions ++ as ∧
      Handled conf now none [] t.arp (tickSlot reading t i).arp as := by
  unfold tickSlot
  dsimp only
  split
  · exact ⟨[],by simp,.refl h⟩
  split
  · exact ⟨[],by simp,.refl h⟩
  split
  · obtain ⟨ht,hf⟩ := freed_flush (t.arp.queue i).packets
    refine ⟨_,rfl,h.empty i,fun b => ?_,fun k => ?_,fun _ => ht⟩
    · have hcount := held_setQueue t.arp i .zero b
      simp at hcount
      simp [ht,hf]
      omega
    · rw [waiting_empty h i k]
      by_cases hk : (t.arp.queue i).key = some k <;> simp [hk]
  rename_i iface hiface _ _
  obtain ⟨ht,hf⟩ := request_silent t.mem iface opRequest (t.arp.queue i).ip (.replicate 6 0)
  have hok := h.each i
  have hq := h.narrow (i := i) (p := { t.arp.queue i with
      attempts := (t.arp.queue i).attempts+1, retryAt := reading+1000 })
    ⟨hok.linked,hok.count,hok.bound,fun hn => by simp [hiface] at hn⟩ (fun k hk => hk)
    fun b => le_rfl
  refine ⟨_,rfl,hq,fun b => ?_,fun k => ?_,fun _ => ht⟩
  · have hcount := held_setQueue t.arp i { t.arp.queue i with
      attempts := (t.arp.queue i).attempts+1, retryAt := reading+1000 } b
    simp only at hcount
    simp [ht,hf]
    omega
  rw [waiting_congr h hq (k := k) (fun j => ?_) fun j _ => ?_]
  · simp
  all_goals
    by_cases hij : i = j
    · subst hij
      simp [Pending.key]
    · simp [hij]

theorem tick_handled (h : Queued conf now s) (reading : Nat) (mem : List Bool) :
    Handled conf now none [] s (s.arpTick reading mem).1 (s.arpTick reading mem).2 := by
  have hfold : ∀ (is : List (Fin 8)) (t : Tick), Queued conf now t.arp →
      ∃ as, (is.foldl (tickSlot reading) t).actions = t.actions ++ as ∧
        Handled conf now none [] t.arp (is.foldl (tickSlot reading) t).arp as := by
    intro is
    induction is with
    | nil => exact fun t ht => ⟨[],by simp,.refl ht⟩
    | cons i is ih =>
      intro t ht
      obtain ⟨as,ha,hh⟩ := tickSlot_handled ht reading i
      obtain ⟨bs,hb,hh'⟩ := ih (tickSlot reading t i) hh.queued
      refine ⟨as ++ bs,?_,hh.trans hh'⟩
      rw [foldl_cons,hb,ha,append_assoc]
  obtain ⟨as,ha,hh⟩ := hfold (finRange 8) ⟨s,[],mem⟩ h
  rw [arpTick]
  generalize (finRange 8).foldl (tickSlot reading) ⟨s,[],mem⟩ = t at ha hh ⊢
  rw [show t.actions = as by simpa using ha]
  exact hh

end

def Call.netif : Call → Option Netif
  | .addStatic iface _ _ | .output iface _ _ _ | .input iface _ => some iface
  | .tick _ => none

def Call.buffer : Call → Option Nat
  | .output _ buf _ _ => some buf
  | _ => none

def Call.neighbor : Call → Option (Nat × BitVec 32)
  | .addStatic iface ip _ | .output iface _ _ ip => some (iface.id,ip)
  | .input iface bytes => if accepts iface bytes then some (iface.id,load32 bytes 14) else none
  | .tick _ => none

theorem dispatch_handled {conf : Nat → Netif} {now : Nat} {s : Arp} (h : Queued conf now s)
    (mem : List Bool) (c : Call) (hconf : ∀ iface ∈ c.netif, conf iface.id = iface)
    (hbuf : ∀ buf ∈ c.buffer, buf ∉ s.held) :
    Handled conf now c.neighbor c.buffer.toList s (s.dispatch now mem c).1 (s.dispatch now mem c).2 := by
  cases c with
  | addStatic iface ip mac => exact learn_handled h iface ip mac true
  | output iface buf frame ip =>
    exact output_handled h mem (hconf iface rfl) (hbuf buf rfl) frame ip
  | input iface bytes =>
    have hl := learn_handled h iface (load32 bytes 14) (macAt bytes 8) false
    have hr := request_silent mem iface opReply (load32 bytes 14) (macAt bytes 8)
    cases ha : accepts iface bytes with
    | false => simpa [dispatch,arpInput,Call.neighbor,Call.buffer,ha] using Handled.refl h
    | true =>
      simp only [dispatch,arpInput,Call.neighbor,ha,if_true]
      refine hl.silent ?_
      split
      · exact hr
      · exact ⟨rfl,rfl⟩
  | tick reading => exact tick_handled h reading mem

def submitted (es : List Event) : List Nat := es.filterMap (·.call.buffer)

def submittedTo (k? : Option (Nat × BitVec 32)) (es : List Event) : List Nat :=
  es.filterMap fun e => if e.call.neighbor = k? then e.call.buffer else none

def World.done (w : World) (e : Event) : Arp × List Action :=
  w.arp.dispatch (w.ticks+e.elapsed) e.mem e.call

def sentTo (k? : Option (Nat × BitVec 32)) (es : List Event) : List Nat :=
  (es.foldl (fun t e => (t.1.step e,
    t.2 ++ if e.call.neighbor = k? then transmitted (t.1.done e).2 else []))
    (machine.initial,([] : List Nat))).2

/-- A caller passes on a buffer of its own: it is in no queue. -/
def World.Owns (w : World) (e : Event) : Prop := ∀ buf ∈ e.call.buffer, buf ∉ w.arp.held

instance (w : World) (e : Event) : Decidable (w.Owns e) :=
  inferInstanceAs (Decidable (∀ buf ∈ e.call.buffer, buf ∉ w.arp.held))

theorem sentTo_concat (k? : Option (Nat × BitVec 32)) (es : List Event) (e : Event) :
    sentTo k? (es ++ [e]) = sentTo k? es ++
      if e.call.neighbor = k? then transmitted ((machine.run es).done e).2 else [] := by
  have hrun : ∀ (t : World × List Nat), (es.foldl (fun t e => (t.1.step e,
      t.2 ++ if e.call.neighbor = k? then transmitted (t.1.done e).2 else [])) t).1 =
      es.foldl World.step t.1 := by
    induction es with
    | nil => simp
    | cons e es ih => simp [ih]
  simp only [sentTo,foldl_append,foldl_cons,foldl_nil,hrun]
  rfl

structure Accounted (conf : Nat → Netif) (es : List Event) : Prop where
  queued : Queued conf (machine.run es).ticks (machine.run es).arp
  kept : ∀ b, (submitted es).count b = (transmitted (machine.run es).actions).count b +
    (freed (machine.run es).actions).count b + (machine.run es).arp.held.count b
  order : ∀ k, (sentTo (some k) es ++ (machine.run es).arp.waiting k).Sublist (submittedTo (some k) es)
  quiet : sentTo none es = []

@[simp] theorem init_queue (i : Fin 8) : init.queue i = .zero := by simp [queue,init]

@[simp] theorem init_held : init.held = [] := by
  rw [eq_nil_iff_forall_not_mem]
  simp [held,mem_gather]

theorem init_queued (conf : Nat → Netif) : Queued conf 0 init := by
  have he : ∀ i, (init.entry i).key = none := by simp [entry,init,Entry.key,Entry.zero]
  refine ⟨fun i => ?_,fun i j k hi => ?_,fun i j hn => absurd (he i) hn,fun i j k hi => ?_,
    fun i k hi => ?_,?_⟩
  · rw [init_queue]
    exact Pending.zero_ok
  all_goals simp at *

theorem Accounted.step {conf : Nat → Netif} {es : List Event} (h : Accounted conf es) {e : Event}
    (hconf : ∀ iface ∈ e.call.netif, conf iface.id = iface) (hown : (machine.run es).Owns e) :
    Accounted conf (es ++ [e]) := by
  have hh : Handled conf ((machine.run es).ticks+e.elapsed) e.call.neighbor e.call.buffer.toList
      (machine.run es).arp ((machine.run es).done e).1 ((machine.run es).done e).2 :=
    dispatch_handled (h.queued.later (Nat.le_add_right _ e.elapsed)) e.mem e.call hconf hown
  have hrun : machine.run (es ++ [e]) = ⟨((machine.run es).done e).1, (machine.run es).ticks+e.elapsed,
      (machine.run es).actions ++ ((machine.run es).done e).2⟩ := machine.run_concat es e
  have hsent := (sentTo_concat · es e)
  refine ⟨?_,fun b => ?_,fun k => ?_,?_⟩
  · rw [hrun]
    exact hh.queued
  · have hnew : submitted (es ++ [e]) = submitted es ++ e.call.buffer.toList := by
      cases hb : e.call.buffer <;> simp [submitted,hb]
    have hold := h.kept b
    have hstep := hh.kept b
    simp only [hrun,hnew,transmitted_append,freed_append,count_append] at hold ⊢
    omega
  · have hnew : submittedTo (some k) (es ++ [e]) = submittedTo (some k) es ++
        if e.call.neighbor = some k then e.call.buffer.toList else [] := by
      by_cases hk : e.call.neighbor = some k
      · cases hb : e.call.buffer <;> simp [submittedTo,hk,hb]
      · simp [submittedTo,hk]
    rw [hsent,hnew,hrun,append_assoc]
    -- what went out and what waits, before this call and then in it
    have hstep := (hh.order k).append_left (sentTo (some k) es)
    have hold := (h.order k).append_right (if e.call.neighbor = some k then e.call.buffer.toList else [])
    rw [append_assoc] at hold
    exact hstep.trans hold
  rw [hsent,h.quiet]
  split
  · exact hh.quiet ‹_›
  · rfl

theorem run_accounted (conf : Nat → Netif) (es : List Event)
    (hconf : ∀ e ∈ es, ∀ iface ∈ e.call.netif, conf iface.id = iface)
    (hown : machine.Along World.Owns machine.initial es) : Accounted conf es := by
  induction es using reverseRecOn with
  | nil =>
    refine ⟨init_queued conf,fun b => ?_,fun k => ?_,rfl⟩
    · simp [submitted,machine,Machine.run,transmitted,freed]
    have hwait : init.waiting k = [] := waiting_nil (by simp)
    simp [sentTo,submittedTo,machine,Machine.run,hwait]
  | append_singleton es e ih =>
    obtain ⟨hes,he,-⟩ := (machine.along_append _ _ es [e]).mp hown
    exact (ih (fun e' he' => hconf e' (by simp [he'])) hes).step (hconf e (by simp)) he

end Arp

/-- Every packet that `arp_output` was given has been transmitted or freed once or is in one queue, the packets for
a neighbour go out in the order they came, and there is one queue for a neighbour at most, and none beside a valid
entry. -/
theorem arp_packets_conserved (conf : Nat → Netif) (es : List Arp.Event)
    (hconf : ∀ e ∈ es, ∀ iface ∈ e.call.netif, conf iface.id = iface)
    (hown : machine.Along Arp.World.Owns machine.initial es) :
    let w := machine.run es
    (submitted es).Perm (transmitted w.actions ++ freed w.actions ++ w.arp.held) ∧
    w.arp.held.Nodup ∧
    (∀ k?, (sentTo k? es).Sublist (submittedTo k? es)) ∧
    (∀ i j k, (w.arp.queue i).key = some k → (w.arp.queue j).key = some k → i = j) ∧
    (∀ i j k, (w.arp.entry i).key = some k → (w.arp.entry j).key = some k →
      (w.arp.entry i).valid w.ticks = true → (w.arp.entry j).valid w.ticks = true → i = j) ∧
    (∀ i, (w.arp.queue i).count = (w.arp.queue i).packets.nodes.length ∧
      (w.arp.queue i).count ≤ 4 ∧ (w.arp.queue i).packets.Linked) ∧
    ∀ i j k, (w.arp.queue i).key = some k → (w.arp.entry j).key = some k →
      (w.arp.entry j).valid w.ticks = false := by
  intro w
  have h := run_accounted conf es hconf hown
  refine ⟨?_,h.queued.nodup,fun k? => ?_,h.queued.single,fun i j k hi hj => ?_,fun i => ?_,
    h.queued.apart⟩
  · rw [perm_iff_count]
    intro b
    have hb := h.kept b
    simp only [count_append]
    exact hb
  · cases k? with
    | none => simp [h.quiet]
    | some k => exact (sublist_append_left ..).trans (h.order k)
  · exact h.queued.distinct i j (fun hn => some_ne_none k (hi.symm.trans hn)) (hi.trans hj.symm)
  · exact ⟨(h.queued.each i).count,(h.queued.each i).bound,(h.queued.each i).linked⟩

namespace Arp

def resolved : List Event :=
  [⟨0,[true],.output ether 7 (replicate 14 0) 0x0200000A⟩,
    ⟨1,[],.output ether 8 (replicate 14 0) 0x0200000A⟩,
    ⟨1,[],.input ether ([0,1,8,0,6,4,0,2] ++ replicate 6 6 ++ [10,0,0,2] ++ replicate 6 2 ++ [10,0,0,1])⟩,
    ⟨1,[],.output ether 7 (replicate 14 1) 0x0200000A⟩]

end Arp

theorem arp_packets_conserved_resolved :
    [7,8,7].Perm (transmitted (machine.run resolved).actions ++
      freed (machine.run resolved).actions ++
      (machine.run resolved).arp.held) := by
  have hown : machine.Along Arp.World.Owns machine.initial resolved := by
    decide +kernel
  have hconf : ∀ e ∈ resolved, ∀ iface ∈ e.call.netif, ether = iface := by
    simp [resolved,Arp.Call.netif]
  exact (arp_packets_conserved (fun _ => ether) resolved hconf hown).1

end Rucux.Net
