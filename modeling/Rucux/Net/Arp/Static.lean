import Rucux.Net.Ipv4
import Rucux.Lib.LinkedCells
import Rucux.Lib.Machine

/-! ARP: the neighbour cache and the packets that wait for a neighbour. -/

namespace Rucux.Net
open Lib

namespace Arp

structure Entry where
  iface : Option Netif
  ip : BitVec 32
  mac : Vector UInt8 6
  expires : Nat

/-- Packets for one neighbour; their Ethernet header still lacks the destination. -/
structure Pending where
  iface : Option Netif
  ip : BitVec 32
  packets : LinkedQueue (List UInt8)
  count : Nat
  attempts : Nat
  retryAt : Nat
  expires : Nat

def Entry.zero : Entry := ⟨none,0,.replicate 6 0,0⟩

def Pending.zero : Pending := ⟨none,0,.empty,0,0,0,0⟩

/-- A packet is known by the address of its buffer. `request` is the transmission of a
frame of ARP's own. -/
inductive Action where
  | transmit (iface : Netif) (buf : Nat) (frame : List UInt8)
  | request (iface : Netif) (frame : List UInt8)
  | free (buf : Nat)
  deriving DecidableEq

end Arp

structure Arp where
  cache : Vector Arp.Entry 64
  pending : Vector Arp.Pending 8

namespace Arp

def init : Arp := ⟨.replicate 64 .zero,.replicate 8 .zero⟩

def entry (s : Arp) (i : Fin 64) : Entry := s.cache[i]

def queue (s : Arp) (i : Fin 8) : Pending := s.pending[i]

def setEntry (s : Arp) (i : Fin 64) (e : Entry) : Arp := { s with cache := s.cache.set i e }

def setQueue (s : Arp) (i : Fin 8) (p : Pending) : Arp := { s with pending := s.pending.set i p }

@[simp] theorem entry_setEntry (s : Arp) (i j : Fin 64) (e : Entry) :
    (s.setEntry i e).entry j = if i = j then e else s.entry j := by
  simp [entry,setEntry,Vector.getElem_set,Fin.val_inj]

@[simp] theorem entry_setQueue (s : Arp) (i : Fin 8) (p : Pending) (j : Fin 64) :
    (s.setQueue i p).entry j = s.entry j := rfl

def Entry.key (e : Entry) : Option (Nat × BitVec 32) := e.iface.map fun i => (i.id,e.ip)

def Pending.key (p : Pending) : Option (Nat × BitVec 32) := p.iface.map fun i => (i.id,p.ip)

def Entry.valid (e : Entry) (now : Nat) : Bool := e.expires = 0 || now < e.expires

def find (s : Arp) (now : Nat) (iface : Netif) (ip : BitVec 32) : Option (Fin 64) :=
  Fin.find? fun i => (s.entry i).key = some (iface.id,ip) && (s.entry i).valid now

def findPending (s : Arp) (iface : Netif) (ip : BitVec 32) : Option (Fin 8) :=
  Fin.find? fun i => (s.queue i).key = some (iface.id,ip)

def transmit (iface : Netif) (mac : Vector UInt8 6) (packet : Nat × List UInt8) : Action :=
  .transmit iface packet.1 (writeAt 0 packet.2 mac.toList)

def opRequest : BitVec 16 := 1
def opReply : BitVec 16 := 2

/-- The frame `request` builds. A request is broadcast, a reply goes to the asker. -/
def requestFrame (iface : Netif) (op : BitVec 16) (target : BitVec 32) (mac : Vector UInt8 6) :
    List UInt8 :=
  (if op = opRequest then List.replicate 6 0xFF else mac.toList) ++ iface.mac.toList ++
    store16 (htons ethTypeArp) ++
    (store16 (htons 1) ++ store16 (htons ethTypeIpv4) ++ [6,4] ++ store16 (htons op) ++
      iface.mac.toList ++ store32 iface.addr ++ mac.toList ++ store32 target)

/-- The answers of the allocator are inputs; without a buffer nothing is sent. -/
def request (mem : List Bool) (iface : Netif) (op : BitVec 16) (target : BitVec 32)
    (mac : Vector UInt8 6) : List Action × List Bool :=
  match mem with
  | true :: rest => ([.request iface (requestFrame iface op target mac)],rest)
  | _ => ([],mem.tail)

def reusable (s : Arp) (now : Nat) : Option (Fin 64) :=
  Fin.find? fun i => (s.entry i).iface.isNone || !(s.entry i).valid now

/-- The entry `learn` writes; when there is neither, it is the first of the cache. -/
def slot (s : Arp) (now : Nat) (iface : Netif) (ip : BitVec 32) : Fin 64 :=
  ((s.find now iface ip).or (s.reusable now)).getD 0

/-- Packets that waited for the neighbour go out once entry and queue are updated. -/
def learn (s : Arp) (now : Nat) (iface : Netif) (ip : BitVec 32) (mac : Vector UInt8 6)
    (permanent : Bool) : Arp × List Action :=
  let published := s.setEntry (s.slot now iface ip) ⟨some iface,ip,mac,if permanent then 0 else now+60000⟩
  match s.findPending iface ip with
  | none => (published,[])
  | some i =>
    (published.setQueue i .zero,(s.queue i).packets.nodes.map (transmit iface mac))

def arpAddStatic (s : Arp) (now : Nat) (iface : Netif) (ip : BitVec 32) (mac : Vector UInt8 6) :
    Arp × List Action :=
  s.learn now iface ip mac true

def freeQueue (s : Arp) : Option (Fin 8) := Fin.find? fun i => (s.queue i).iface.isNone

/-- The queue of the neighbour, or a free one with the first request under way. -/
def openQueue (s : Arp) (now : Nat) (iface : Netif) (ip : BitVec 32) : Option (Fin 8 × Pending × Bool) :=
  match s.findPending iface ip with
  | some i => some (i,s.queue i,false)
  | none =>
    match s.freeQueue with
    | none => none
    | some i => some (i,{ s.queue i with
        iface := some iface, ip := ip, attempts := 1, retryAt := now+1000
        expires := now+1000+2000 },true)

def packetsPerNeighbor : Nat := 4

def broadcast (iface : Netif) (ip : BitVec 32) : Bool :=
  ip = 0xFFFFFFFF || ip = iface.addr ||| ~~~iface.netmask

def arpOutput (s : Arp) (now : Nat) (mem : List Bool) (iface : Netif) (buf : Nat)
    (frame : List UInt8) (nextHop : BitVec 32) : Arp × List Action :=
  if broadcast iface nextHop then (s,[transmit iface (.replicate 6 0xFF) (buf,frame)])
  else
    match s.find now iface nextHop with
    | some i => (s,[transmit iface (s.entry i).mac (buf,frame)])
    | none =>
      match s.openQueue now iface nextHop with
      | none => (s,[.free buf])
      | some (i,p,ask) =>
        if p.count = packetsPerNeighbor then (s.setQueue i p,[.free buf])
        else
          (s.setQueue i { p with packets := p.packets.push buf frame, count := p.count+1 },
            if ask then (request mem iface opRequest nextHop (.replicate 6 0)).1 else [])

def macAt (bytes : List UInt8) (i : Nat) : Vector UInt8 6 := .ofFn fun k => bytes.getD (i+k) 0

/-- The checks of `arp_input`; the sender is at offset 8, the target at 18. -/
def accepts (iface : Netif) (bytes : List UInt8) : Bool :=
  let op := ntohs (load16 bytes 6)
  28 ≤ bytes.length && ntohs (load16 bytes 0) = 1 && ntohs (load16 bytes 2) = ethTypeIpv4 &&
    byteAt bytes 4 = 6 && byteAt bytes 5 = 4 && (op = opRequest || op = opReply) &&
    load32 bytes 24 = iface.addr && load32 bytes 14 ≠ 0 && byteAt bytes 8 &&& 1 = 0 &&
    !(op = opReply && macAt bytes 18 ≠ iface.mac)

def arpInput (s : Arp) (now : Nat) (mem : List Bool) (iface : Netif) (bytes : List UInt8) :
    Arp × List Action :=
  if accepts iface bytes then
    let learned := s.learn now iface (load32 bytes 14) (macAt bytes 8) false
    let reply := if ntohs (load16 bytes 6) = opRequest then
      (request mem iface opReply (load32 bytes 14) (macAt bytes 8)).1 else []
    (learned.1,learned.2 ++ reply)
  else (s,[])

/-- What one round of the loop of `arp_tick` leaves for the next. -/
structure Tick where
  arp : Arp
  actions : List Action
  mem : List Bool

/-- A queue whose time is up is freed with its packets; before that it asks again. -/
def tickSlot (now : Nat) (t : Tick) (i : Fin 8) : Tick :=
  let p := t.arp.queue i
  match p.iface with
  | none => t
  | some iface =>
    if now < p.retryAt then t
    else if p.expires ≤ now || p.attempts = 3 then
      { t with
        arp := t.arp.setQueue i .zero
        actions := t.actions ++ p.packets.nodes.map fun packet => .free packet.1 }
    else
      let asked := request t.mem iface opRequest p.ip (.replicate 6 0)
      ⟨t.arp.setQueue i { p with attempts := p.attempts+1, retryAt := now+1000 },
        t.actions ++ asked.1,asked.2⟩

def arpTick (s : Arp) (now : Nat) (mem : List Bool) : Arp × List Action :=
  let t := (List.finRange 8).foldl (tickSlot now) ⟨s,[],mem⟩
  (t.arp,t.actions)

inductive Call where
  | addStatic (iface : Netif) (ip : BitVec 32) (mac : Vector UInt8 6)
  | output (iface : Netif) (buf : Nat) (frame : List UInt8) (nextHop : BitVec 32)
  | input (iface : Netif) (bytes : List UInt8)
  | tick (now : Nat)

/-- `elapsed` is the time since the call before it. -/
structure Event where
  elapsed : Nat
  mem : List Bool
  call : Call

structure World where
  arp : Arp
  ticks : Nat
  actions : List Action

def dispatch (s : Arp) (now : Nat) (mem : List Bool) : Call → Arp × List Action
  | .addStatic iface ip mac => s.arpAddStatic now iface ip mac
  | .output iface buf frame nextHop => s.arpOutput now mem iface buf frame nextHop
  | .input iface bytes => s.arpInput now mem iface bytes
  | .tick now => s.arpTick now mem

def World.step (w : World) (e : Event) : World :=
  let now := w.ticks+e.elapsed
  let done := w.arp.dispatch now e.mem e.call
  ⟨done.1,now,w.actions ++ done.2⟩

def machine : Machine World Event := ⟨⟨init,0,[]⟩,World.step⟩

end Arp

/-! What `arp_add_static` promises: packets for the neighbour go to the address given. -/

open Option Arp
open List hiding Vector

namespace Arp

def Entry.isStatic (e : Entry) : Bool := e.iface.isSome && e.expires = 0

def noteStatic (k : Nat × BitVec 32) (known : Option (Vector UInt8 6)) (e : Event) :
    Option (Vector UInt8 6) :=
  match e.call with
  | .addStatic iface ip mac => if (iface.id,ip) = k then some mac else known
  | _ => known

def staticMac (k : Nat × BitVec 32) (es : List Event) : Option (Vector UInt8 6) :=
  es.foldl (noteStatic k) none

structure Lesson where
  iface : Netif
  ip : BitVec 32
  mac : Vector UInt8 6
  permanent : Bool

def Call.lesson : Call → Option Lesson
  | .addStatic iface ip mac => some ⟨iface,ip,mac,true⟩
  | .input iface bytes =>
    if accepts iface bytes then some ⟨iface,load32 bytes 14,macAt bytes 8,false⟩ else none
  | _ => none

def Call.asksBroadcast : Call → Option (Nat × BitVec 32)
  | .output iface _ _ ip => if broadcast iface ip then some (iface.id,ip) else none
  | _ => none

/-- The step writes over no static entry, except with another static entry for the same
neighbour, and does not broadcast to a static neighbour. -/
def World.spares (w : World) (e : Event) : Bool :=
  (e.call.lesson.all fun l =>
    let old := w.arp.entry (w.arp.slot (w.ticks+e.elapsed) l.iface l.ip)
    !old.isStatic || l.permanent && old.key = some (l.iface.id,l.ip)) &&
  e.call.asksBroadcast.all fun k =>
    ∀ i : Fin 64, (w.arp.entry i).key = some k → (w.arp.entry i).isStatic = false

section
variable {s : Arp} {now : Nat} {iface : Netif} {ip : BitVec 32}

def Distinct (s : Arp) (now : Nat) : Prop :=
  ∀ i j : Fin 64, (s.entry i).key ≠ none → (s.entry i).key = (s.entry j).key →
    (s.entry i).valid now = true → (s.entry j).valid now = true → i = j

theorem Entry.valid_mono {e : Entry} {now later : Nat} (h : e.valid later = true)
    (hle : now ≤ later) : e.valid now = true := by
  simp only [Entry.valid,Bool.or_eq_true,decide_eq_true_eq] at h ⊢
  omega

theorem find_some {i : Fin 64} (h : s.find now iface ip = some i) :
    (s.entry i).key = some (iface.id,ip) ∧ (s.entry i).valid now = true := by
  simpa using (Fin.find?_eq_some_iff.mp h).1

theorem find_none (h : s.find now iface ip = none) {i : Fin 64}
    (hk : (s.entry i).key = some (iface.id,ip)) : (s.entry i).valid now = false := by
  simpa [hk] using Fin.find?_eq_none_iff.mp h i

theorem Distinct.find_eq (h : s.Distinct now) {i : Fin 64}
    (hk : (s.entry i).key = some (iface.id,ip)) (hv : (s.entry i).valid now = true) :
    s.find now iface ip = some i := by
  cases hf : s.find now iface ip with
  | none => simp [find_none hf hk] at hv
  | some j =>
    obtain ⟨hkj,hvj⟩ := find_some hf
    rw [h i j (by simp [hk]) (hk.trans hkj.symm) hv hvj]

theorem Distinct.later (h : s.Distinct now) {later : Nat} (hle : now ≤ later) : s.Distinct later :=
  fun i j hn hk hi hj => h i j hn hk (Entry.valid_mono hi hle) (Entry.valid_mono hj hle)

theorem learn_entry (s : Arp) (now : Nat) (iface : Netif) (ip : BitVec 32) (mac : Vector UInt8 6)
    (permanent : Bool) (i : Fin 64) : (s.learn now iface ip mac permanent).1.entry i =
      if s.slot now iface ip = i then ⟨some iface,ip,mac,if permanent then 0 else now+60000⟩
      else s.entry i := by
  unfold learn
  dsimp only
  split <;> simp

theorem Distinct.learn (h : s.Distinct now) (mac : Vector UInt8 6) (permanent : Bool) :
    (s.learn now iface ip mac permanent).1.Distinct now := by
  -- a valid entry for the neighbour that is learned is the one that is written
  have hslot : ∀ j, (s.entry j).key = some (iface.id,ip) → (s.entry j).valid now = true →
      s.slot now iface ip = j := by
    intro j hk hv
    rw [slot,h.find_eq hk hv]
    rfl
  intro i j
  rw [learn_entry,learn_entry]
  by_cases hi : s.slot now iface ip = i <;> by_cases hj : s.slot now iface ip = j
  · intros
    exact hi.symm.trans hj
  · rw [if_pos hi,if_neg hj]
    intro _ hk _ hv
    exact absurd (hslot j hk.symm hv) hj
  · rw [if_neg hi,if_pos hj]
    intro _ hk hv _
    exact absurd (hslot i hk hv) hi
  · rw [if_neg hi,if_neg hj]
    exact h i j

theorem foldl_tickSlot_cache (now : Nat) (is : List (Fin 8)) (t : Tick) :
    (is.foldl (tickSlot now) t).arp.cache = t.arp.cache := by
  induction is generalizing t with
  | nil => rfl
  | cons i is ih =>
    rw [foldl_cons,ih,tickSlot]
    dsimp only
    split
    · rfl
    split
    · rfl
    split <;> rfl

section
variable (s : Arp) (now : Nat) (mem : List Bool)

theorem arpTick_cache : (s.arpTick now mem).1.cache = s.cache := by
  rw [arpTick,foldl_tickSlot_cache]

theorem arpOutput_cache (iface : Netif) (buf : Nat) (frame : List UInt8) (ip : BitVec 32) :
    (s.arpOutput now mem iface buf frame ip).1.cache = s.cache := by
  unfold arpOutput
  split
  · rfl
  split
  · rfl
  split
  · rfl
  split <;> rfl

theorem dispatch_cache (c : Call) : (s.dispatch now mem c).1.cache = match c.lesson with
      | none => s.cache
      | some l => (s.learn now l.iface l.ip l.mac l.permanent).1.cache := by
  cases c with
  | addStatic iface ip mac => rfl
  | output iface buf frame ip => exact arpOutput_cache s now mem iface buf frame ip
  | input iface bytes =>
    simp only [dispatch,arpInput,Call.lesson]
    split <;> rfl
  | tick reading => exact arpTick_cache s reading mem

end

end

def World.Keeps (w : World) (known : Nat × BitVec 32 → Option (Vector UInt8 6)) : Prop :=
  ∀ k mac, known k = some mac → ∃ i, (w.arp.entry i).key = some k ∧ (w.arp.entry i).mac = mac ∧
    (w.arp.entry i).expires = 0

theorem entry_congr {s t : Arp} (h : s.cache = t.cache) (i : Fin 64) : s.entry i = t.entry i := by
  unfold entry
  rw [h]

theorem Entry.isStatic_of {e : Entry} {k : Nat × BitVec 32} (hk : e.key = some k)
    (hx : e.expires = 0) : e.isStatic = true := by
  obtain ⟨iface,hi,-⟩ := map_eq_some_iff.mp hk
  simp [Entry.isStatic,hi,hx]

theorem noteStatic_lesson (k : Nat × BitVec 32) (known : Option (Vector UInt8 6)) (e : Event) :
    noteStatic k known e = match e.call.lesson with
      | none => known
      | some l => if l.permanent = true ∧ (l.iface.id,l.ip) = k then some l.mac else known := by
  unfold noteStatic Call.lesson
  cases e.call with
  | addStatic iface ip mac => simp
  | input iface bytes => cases h : accepts iface bytes <;> simp [h]
  | _ => rfl

theorem step_keeps {w : World} {known : Nat × BitVec 32 → Option (Vector UInt8 6)} (e : Event)
    (h : w.Keeps known) (hok : w.spares e = true) :
    (w.step e).Keeps fun k => noteStatic k (known k) e := by
  have hc := dispatch_cache w.arp (w.ticks+e.elapsed) e.mem e.call
  have hold := (Bool.and_eq_true _ _ ▸ hok).1
  intro k mac (hmac : noteStatic k (known k) e = some mac)
  rw [noteStatic_lesson] at hmac
  cases hl : e.call.lesson with
  | none =>
    rw [hl] at hmac hc
    obtain ⟨i,hi⟩ := h k mac hmac
    exact ⟨i,by rw [show (w.step e).arp.entry i = w.arp.entry i from entry_congr hc i]; exact hi⟩
  | some l =>
    rw [hl] at hmac hc hold
    have he : ∀ i, (w.step e).arp.entry i = if w.arp.slot (w.ticks+e.elapsed) l.iface l.ip = i
        then ⟨some l.iface,l.ip,l.mac,if l.permanent then 0 else w.ticks+e.elapsed+60000⟩
        else w.arp.entry i := by
      intro i
      rw [← learn_entry w.arp (w.ticks+e.elapsed) l.iface l.ip l.mac l.permanent i]
      exact entry_congr hc i
    dsimp only at hmac
    split at hmac
    · rename_i hp
      obtain ⟨hperm,rfl⟩ := hp
      cases hmac
      refine ⟨w.arp.slot (w.ticks+e.elapsed) l.iface l.ip,?_⟩
      rw [he,if_pos rfl]
      exact ⟨rfl,rfl,by simp [hperm]⟩
    rename_i hp
    obtain ⟨i,hk,hm,hx⟩ := h k mac hmac
    have hne : w.arp.slot (w.ticks+e.elapsed) l.iface l.ip ≠ i := by
      rintro rfl
      have hs := Entry.isStatic_of hk hx
      simp only [all_some,hs,hk,Bool.not_true,Bool.false_or,Bool.and_eq_true,
        decide_eq_true_eq,some_inj] at hold
      exact hp ⟨hold.1,hold.2.symm⟩
    exact ⟨i,by rw [he,if_neg hne]; exact ⟨hk,hm,hx⟩⟩

theorem step_distinct {w : World} (e : Event) (h : w.arp.Distinct w.ticks) :
    (w.step e).arp.Distinct (w.step e).ticks := by
  have hc := dispatch_cache w.arp (w.ticks+e.elapsed) e.mem e.call
  have hlater : w.arp.Distinct (w.ticks+e.elapsed) := h.later (Nat.le_add_right ..)
  have hcongr : ∀ {s t : Arp} {now : Nat}, s.cache = t.cache → t.Distinct now → s.Distinct now := by
    intro s t now hst ht i j
    rw [entry_congr hst i,entry_congr hst j]
    exact ht i j
  cases hl : e.call.lesson with
  | none =>
    rw [hl] at hc
    exact hcongr hc hlater
  | some l =>
    rw [hl] at hc
    exact hcongr hc (hlater.learn l.mac l.permanent)

theorem run_keeps (es : List Event) (hok : machine.Along (World.spares · ·) machine.initial es) :
    (machine.run es).arp.Distinct (machine.run es).ticks ∧
      (machine.run es).Keeps fun k => staticMac k es := by
  induction es using reverseRecOn with
  | nil => exact ⟨fun i j hn => by simp [machine,Machine.run,init,entry,Entry.key,Entry.zero] at hn,nofun⟩
  | append_singleton es e ih =>
    obtain ⟨hes,he,-⟩ := (machine.along_append _ _ es [e]).mp hok
    obtain ⟨hd,hk⟩ := ih hes
    rw [Machine.run_concat]
    refine ⟨step_distinct e hd,?_⟩
    have hnote : (fun k => staticMac k (es ++ [e])) = fun k => noteStatic k (staticMac k es) e := by
      funext k
      simp [staticMac]
    rw [hnote]
    exact step_keeps e hk he

end Arp

/-- In a run that spares static entries, `arp_output` transmits at once, to the address
that `arp_add_static` gave last. -/
theorem static_entries_authoritative (es : List Arp.Event) (elapsed : Nat) (mem : List Bool)
    (iface : Netif) (buf : Nat) (frame : List UInt8) (ip : BitVec 32)
    (hok : machine.Along (Arp.World.spares · ·) machine.initial
      (es ++ [⟨elapsed,mem,.output iface buf frame ip⟩]))
    {mac : Vector UInt8 6} (hmac : staticMac (iface.id,ip) es = some mac) :
    (machine.run (es ++ [⟨elapsed,mem,.output iface buf frame ip⟩])).actions =
      (machine.run es).actions ++ [.transmit iface buf (writeAt 0 frame mac.toList)] := by
  obtain ⟨hes,he,-⟩ := (machine.along_append _ _ es _).mp hok
  obtain ⟨hd,hk⟩ := run_keeps es hes
  obtain ⟨i,hi,rfl,hx⟩ := hk _ _ hmac
  have hv : ((machine.run es).arp.entry i).valid
      ((machine.run es).ticks+elapsed) = true := by simp [Arp.Entry.valid,hx]
  have hfind := (hd.later (Nat.le_add_right _ elapsed)).find_eq hi hv
  have hunicast : broadcast iface ip = false := by
    cases hb : broadcast iface ip with
    | false => rfl
    | true =>
      have hall := (Bool.and_eq_true _ _ ▸ he).2
      simp only [Arp.Call.asksBroadcast,hb,if_true,all_some,decide_eq_true_eq] at hall
      have hdynamic : ((machine.run es).arp.entry i).isStatic = false := hall i hi
      exact absurd (Arp.Entry.isStatic_of hi hx) (by simp [hdynamic])
  have hout : (machine.run es).arp.dispatch ((machine.run es).ticks+elapsed) mem
      (.output iface buf frame ip) = ((machine.run es).arp,[transmit iface
        ((machine.run es).arp.entry i).mac (buf,frame)]) := by
    simp only [Arp.dispatch,Arp.arpOutput,hunicast,hfind,Bool.false_eq_true,if_false]
  rw [Machine.run_concat]
  exact congrArg (fun done => (machine.run es).actions ++ done.2) hout

namespace Arp

def ether : Netif := ⟨1,.replicate 6 2,0x0100000A,0x00FFFFFF,0,1500⟩

def addedStatic : List Event := [⟨0,[],.addStatic ether 0x0200000A (.replicate 6 4)⟩]

def packetOut : Event := ⟨1,[],.output ether 9 (replicate 14 0) 0x0200000A⟩

/-- A neighbour says where it is. -/
def answer (host : UInt8) : Event :=
  ⟨1,[],.input ether ([0,1,8,0,6,4,0,2] ++ replicate 6 6 ++ [10,0,0,host] ++ replicate 6 2 ++ [10,0,0,1])⟩

end Arp

theorem static_entries_authoritative_added :
    (machine.run (addedStatic ++ [answer 3] ++ [packetOut])).actions =
      [.transmit ether 9 (replicate 6 4 ++ replicate 8 0)] := by
  have hquiet : (machine.run (addedStatic ++ [answer 3])).actions = [] := by decide +kernel
  have h := static_entries_authoritative (addedStatic ++ [answer 3]) 1 [] ether 9 (replicate 14 0)
    0x0200000A (by decide +kernel) rfl
  rw [hquiet] at h
  exact h

def Arp.poisoned : List Arp.Event := addedStatic ++ [answer 2]

theorem poisoned_transmits_elsewhere :
    staticMac (ether.id,0x0200000A) poisoned = some (.replicate 6 4) ∧
    (machine.run (poisoned ++ [packetOut])).actions =
      [.transmit ether 9 (replicate 6 6 ++ replicate 8 0)] := by
  decide +kernel

/-- No slot hides another: a lookup finds the entry of a neighbour exactly if it is valid. -/
theorem arp_lookup_exact (es : List Arp.Event) (iface : Netif) (ip : BitVec 32) (i : Fin 64) :
    let w := Arp.machine.run es
    w.arp.find w.ticks iface ip = some i ↔
      (w.arp.entry i).key = some (iface.id,ip) ∧ (w.arp.entry i).valid w.ticks = true := by
  have h := Arp.machine.run_invariant (I := fun w => w.arp.Distinct w.ticks)
    (fun i j hn => by simp [Arp.machine,Arp.init,entry,Entry.key,Entry.zero] at hn) (fun _ e h => step_distinct e h) es
  exact ⟨find_some,fun hi => h.find_eq hi.1 hi.2⟩

end Rucux.Net
