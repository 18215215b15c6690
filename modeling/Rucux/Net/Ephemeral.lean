import Rucux.Net.Tcp.Layer

/-! Ephemeral ports in both transport layers. Of UDP only what binding reads is here; `udp_connect` and
`udp_sendto` bind with `bind` and port 0. -/

namespace Rucux.Net
open Lib

/-- The loop over the rotating counter: the port it ends with, 0 for none, and the counter. -/
def probe (used : BitVec 16 → Bool) : Nat → BitVec 16 → BitVec 16 × BitVec 16
  | 0, next => (0,next)
  | rounds+1, next =>
    let port := htons next
    let next := if (next + 1).toNat < 49152 then 49152 else next + 1
    if used port then probe used rounds next else (port,next)

structure UdpPcb where
  addr : Nat
  bound : Bool
  localIp : BitVec 32
  localPort : BitVec 16

structure Udp where
  pcbs : List UdpPcb
  ephemeral : BitVec 16

namespace Udp

inductive Event where
  | new (addr : Nat)
  | free (addr : Nat)
  | bind (addr : Nat) (ip : BitVec 32) (port : BitVec 16)

def portUsed (s : Udp) (self : Nat) (ip : BitVec 32) (port : BitVec 16) : Bool :=
  s.pcbs.any fun p => p.addr ≠ self ∧ p.bound ∧ p.localPort = port ∧ (ip = 0 ∨ p.localIp = 0 ∨ ip = p.localIp)

def udpBind (s : Udp) (p : UdpPcb) (ip : BitVec 32) (port : BitVec 16) : Udp × Int :=
  if p.bound then (s,-22)
  else
    let choice := if port = 0 then probe (s.portUsed p.addr ip) 16384 s.ephemeral else (port,s.ephemeral)
    let s := { s with ephemeral := choice.2 }
    if choice.1 = 0 ∨ s.portUsed p.addr ip choice.1 then (s,-98)
    else ({ s with
      pcbs := s.pcbs.map fun q => if q.addr = p.addr then ⟨q.addr,true,ip,choice.1⟩ else q },0)

def step (s : Udp) : Event → Udp
  | .new a => if s.pcbs.any (·.addr = a) then s else { s with pcbs := ⟨a,false,0,0⟩ :: s.pcbs }
  | .free a => { s with pcbs := s.pcbs.filter (·.addr ≠ a) }
  | .bind a ip port =>
    match s.pcbs.find? (·.addr = a) with
    | none => s
    | some p => (s.udpBind p ip port).1

def machine : Machine Udp Event := ⟨⟨[],49152⟩,step⟩

end Udp

/-- `c` comes up within `rounds` rounds when it is that far ahead of the counter, going round the range. -/
theorem probe_spec (used : BitVec 16 → Bool) (rounds : Nat) {next : BitVec 16} (hlo : 49152 ≤ next.toNat) :
    49152 ≤ (probe used rounds next).2.toNat ∧
    ((∃ c : BitVec 16, 49152 ≤ c.toNat ∧ used (htons c) = false ∧ (probe used rounds next).1 = htons c) ∨
      (probe used rounds next).1 = 0 ∧ ∀ c : BitVec 16, 49152 ≤ c.toNat →
        (c.toNat+16384-next.toNat)%16384 < rounds → used (htons c)) := by
  induction rounds generalizing next with
  | zero => simp [probe,hlo]
  | succ rounds ih =>
    have hnext : (if (next + 1).toNat < 49152 then 49152 else next + 1).toNat =
        if next.toNat = 65535 then 49152 else next.toNat+1 := by
      have := BitVec.toNat_add next 1
      have := next.isLt
      split <;> split <;> simp_all <;> omega
    simp only [probe]
    generalize (if (next + 1).toNat < 49152 then 49152 else next + 1) = next' at hnext ⊢
    have hlo' : 49152 ≤ next'.toNat := by
      rw [hnext]
      split <;> omega
    split
    · obtain ⟨hr,h | ⟨h0,hall⟩⟩ := ih hlo'
      · exact ⟨hr,.inl h⟩
      refine ⟨hr,.inr ⟨h0,fun c hc hd => ?_⟩⟩
      by_cases he : c = next
      · rwa [he]
      refine hall c hc ?_
      rw [hnext]
      split <;> bv_omega
    · exact ⟨hlo',.inl ⟨next,hlo,Bool.eq_false_iff.mpr ‹_›,rfl⟩⟩

/-- What a call that may take any port in the range answers and assigns. -/
def Assigned (used : BitVec 16 → Bool) (code : Int) (port : BitVec 16 → Prop) : Prop :=
  (code = -98 ↔ ∀ c : BitVec 16, 49152 ≤ c.toNat → used (htons c)) ∧
  (code ≠ -98 → code = 0 ∧ ∃ c : BitVec 16, 49152 ≤ c.toNat ∧ used (htons c) = false ∧ port (htons c))

theorem assigned_of_probe {σ : Type} {failed bound : σ} {used : BitVec 16 → Bool} {next : BitVec 16}
    (port : σ → BitVec 16 → Prop) (hlo : 49152 ≤ next.toNat) (hport : port bound (probe used 16384 next).1) :
    let r := if (probe used 16384 next).1 = 0 ∨ used (probe used 16384 next).1 then (failed,-98) else (bound,0)
    Assigned used r.2 (port r.1) := by
  obtain ⟨-,⟨c,hc,hfree,he⟩ | ⟨h0,hall⟩⟩ := probe_spec used 16384 hlo
  · have hz : htons c ≠ 0 := fun h => by
      have := congrArg ntohs h
      rw [ntohs_htons] at this
      exact absurd (this ▸ hc) (by decide)
    rw [he] at hport ⊢
    rw [if_neg (by rw [hfree]; simpa using hz)]
    exact ⟨⟨nofun,fun h => by simp [h c hc] at hfree⟩,fun _ => ⟨rfl,c,hc,hfree,hport⟩⟩
  · rw [if_pos (.inl h0)]
    exact ⟨⟨fun _ c hc => hall c hc (Nat.mod_lt _ (by decide)),fun _ => rfl⟩,fun h => absurd rfl h⟩

namespace Tcp
variable {s : Tcp} {p : Pcb}

theorem ephemeralPort_eq (self : Nat) (ip : BitVec 32) (rounds : Nat) (next : BitVec 16) :
    s.ephemeralPort self ip rounds next = probe (s.portUsed self ip) rounds next := by
  induction rounds generalizing next with
  | zero => rfl
  | succ rounds ih => simp only [ephemeralPort,probe,ih]

@[simp] theorem freeLocked_next : (s.freeLocked p).nextEphemeral = s.nextEphemeral := by
  unfold freeLocked
  split <;> rfl

@[simp] theorem runOn_next (op : Op) : (s.runOn p op).1.nextEphemeral = s.nextEphemeral := by
  simp only [runOn,commit]
  repeat' split
  all_goals first
    | exact freeLocked_next
    | rfl

theorem foldl_next {f : Tcp → Nat → Tcp} (hf : ∀ s a, (f s a).nextEphemeral = s.nextEphemeral) (as : List Nat) :
    (as.foldl f s).nextEphemeral = s.nextEphemeral := by
  induction as generalizing s with
  | nil => rfl
  | cons a as ih => exact ih.trans (hf s a)

theorem bindLocked_next (hlo : 49152 ≤ s.nextEphemeral.toNat) (ip : BitVec 32) (port : BitVec 16) :
    49152 ≤ (s.bindLocked p ip port).1.nextEphemeral.toNat := by
  simp only [bindLocked,ephemeralPort_eq]
  have := (probe_spec (s.portUsed p.addr ip) 16384 hlo).1
  split_ifs <;> simpa

theorem dispatch_next (hlo : 49152 ≤ s.nextEphemeral.toNat) (e : Event) :
    49152 ≤ (s.dispatch e).1.nextEphemeral.toNat := by
  have hbind := fun p => bindLocked_next (p := p) hlo
  have hnew : s.newLocked.2.nextEphemeral = s.nextEphemeral := by
    unfold newLocked
    repeat' split
    all_goals rfl
  have htick : ∀ now, (s.tcpTick now).nextEphemeral = s.nextEphemeral := fun _ =>
    foldl_next (fun s a => by unfold tickAt; split <;> simp) _
  have hfree : ∀ l, (s.freeChildren l).nextEphemeral = s.nextEphemeral := fun _ =>
    foldl_next (fun s a => by unfold freeChild; split <;> [rfl; (split <;> simp)]) _
  simp only [dispatch,onHeld,tcpBind,tcpConnect,tcpAccept,tcpClose,tcpInput,segmentInput,rejectSegment,listenInput]
  repeat' split
  all_goals simp_all [update]

theorem next_range (es : List Event) : 49152 ≤ (machine.run es).nextEphemeral.toNat :=
  machine.run_invariant (I := fun s => 49152 ≤ s.nextEphemeral.toNat) (by decide)
    (fun s e h => dispatch_next (s := s.enter e) h e) es

end Tcp

theorem Udp.next_range (es : List Udp.Event) : 49152 ≤ (Udp.machine.run es).ephemeral.toNat := by
  refine Udp.machine.run_invariant (I := fun s => 49152 ≤ s.ephemeral.toNat) (by decide) (fun s e h => ?_) es
  cases e with
  | new a =>
    simp only [Udp.machine,Udp.step]
    split <;> exact h
  | free a => exact h
  | bind a ip port =>
    simp only [Udp.machine,Udp.step,Udp.udpBind]
    split
    · exact h
    · rename_i p _
      have := (probe_spec (s.portUsed p.addr ip) 16384 h).1
      split_ifs <;> simpa

/-- Both layers, from every reachable state: binding a free PCB with port 0. -/
theorem ephemeral_ports :
    (∀ (es : List Tcp.Event) (p : Pcb) (ip : BitVec 32), let s := Tcp.machine.run es
      49152 ≤ s.nextEphemeral.toNat ∧ (p ∈ s.pcbs → p.state = .closed → p.localPort = 0 →
        let r := s.bindLocked p ip 0
        Assigned (s.portUsed p.addr ip) r.2 fun port => bindPcb p ip port ∈ r.1.pcbs)) ∧
    ∀ (es : List Udp.Event) (p : UdpPcb) (ip : BitVec 32), let s := Udp.machine.run es
      49152 ≤ s.ephemeral.toNat ∧ (p ∈ s.pcbs → p.bound = false →
        let r := s.udpBind p ip 0
        Assigned (s.portUsed p.addr ip) r.2 fun port => ⟨p.addr,true,ip,port⟩ ∈ r.1.pcbs) := by
  refine ⟨fun es p ip => ⟨Tcp.next_range es,fun hp hs hl => ?_⟩,
    fun es p ip => ⟨Udp.next_range es,fun hp hb => ?_⟩⟩
  · simp only [Tcp.bindLocked,hs,hl,Tcp.ephemeralPort_eq,ne_eq,not_true_eq_false,or_self,if_false,if_true]
    exact assigned_of_probe (fun (t : Tcp) port => bindPcb p ip port ∈ t.pcbs) (Tcp.next_range es)
      (List.mem_map.mpr ⟨p,hp,if_pos rfl⟩)
  · simp only [Udp.udpBind,hb,Bool.false_eq_true,if_false,if_true]
    refine assigned_of_probe (fun (t : Udp) port => ⟨p.addr,true,ip,port⟩ ∈ t.pcbs) (Udp.next_range es) ?_
    exact List.mem_map.mpr ⟨p,hp,if_pos rfl⟩

/-- A TCP PCB, and a UDP PCB that finds the first port in use. -/
theorem ephemeral_ports_second :
    (∃ p ∈ (Tcp.machine.run (Tcp.served.take 1)).pcbs,
      let r := (Tcp.machine.run (Tcp.served.take 1)).bindLocked p 0 0
      Assigned ((Tcp.machine.run (Tcp.served.take 1)).portUsed p.addr 0) r.2 fun port =>
        bindPcb p 0 port ∈ r.1.pcbs) ∧
    let s := Udp.machine.run [.new 1,.bind 1 0 0,.new 2]
    let r := s.udpBind ⟨2,false,0,0⟩ 0 0
    s.portUsed 2 0 (htons 49152) = true ∧
      Assigned (s.portUsed 2 0) r.2 fun port => ⟨2,true,0,port⟩ ∈ r.1.pcbs := by
  constructor
  · have hrun : (Tcp.machine.run (Tcp.served.take 1)).pcbs.map (fun p => (p.state,p.localPort)) = [(.closed,0)] := by
      decide +kernel
    obtain ⟨p,hp,he⟩ := List.map_eq_singleton_iff.mp hrun
    have hm : p ∈ (Tcp.machine.run (Tcp.served.take 1)).pcbs := by rw [hp]; exact List.mem_singleton_self p
    exact ⟨p,hm,(ephemeral_ports.1 _ p 0).2 hm (congrArg Prod.fst he) (congrArg Prod.snd he)⟩
  · exact ⟨by decide +kernel,(ephemeral_ports.2 _ _ 0).2 (List.Mem.head _) rfl⟩

namespace Udp

/-- What a PCB is bound to conflicts with the binding of no other. -/
def Apart (s : Udp) : Prop := ∀ p ∈ s.pcbs, p.bound → s.portUsed p.addr p.localIp p.localPort = false

theorem Apart.step {s : Udp} (h : s.Apart) (e : Event) : (s.step e).Apart := by
  simp only [Apart,portUsed,List.any_eq_false] at *
  cases e with
  | new a =>
    simp only [Udp.step]
    grind
  | free a => grind [Udp.step]
  | bind a ip port =>
    simp only [Udp.step,udpBind]
    split
    · exact h
    split
    · exact h
    generalize (if port = 0 then _ else (port,s.ephemeral)) = choice
    split
    · exact h
    · -- the port that is taken conflicts with no other PCB
      simp only [portUsed] at *
      grind

/-- `find_udp_pcb`; `peer` is its test of the remote end. -/
def findUdpPcb (s : Udp) (peer : UdpPcb → Bool) (ip : BitVec 32) (port : BitVec 16) : Option UdpPcb :=
  s.pcbs.find? fun p => p.bound ∧ p.localPort = port ∧ (p.localIp = 0 ∨ p.localIp = ip) ∧ peer p

/-- No two bindings conflict, so a datagram goes to every PCB it fits. -/
theorem bindings_apart (es : List Event) : (machine.run es).Apart ∧ ∀ peer ip port a,
    ((machine.run es).findUdpPcb peer ip port).map (·.addr) = some a ↔ ∃ p ∈ (machine.run es).pcbs,
      p.addr = a ∧ p.bound ∧ p.localPort = port ∧ (p.localIp = 0 ∨ p.localIp = ip) ∧ peer p := by
  have h : (machine.run es).Apart := machine.run_invariant nofun (fun _ e h => h.step e) es
  refine ⟨h,fun _ _ _ _ => ?_⟩
  simp only [Apart,portUsed,List.any_eq_false] at h
  unfold findUdpPcb
  cases hq : List.find? _ _ with
  | none => grind [List.find?_eq_none]
  | some q =>
    have hmem := List.mem_of_find?_eq_some hq
    have hfits := List.find?_some hq
    grind

end Udp

end Rucux.Net
