import Mathlib.Data.List.FinRange
import Rucux.Lib.Machine

/-!
AF_UNIX sockets: a pool of slots that name each other by their indices, and the descriptors of all
threads that name slots.
-/

namespace Rucux.Ipc
open Lib List Option

abbrev Slot := Fin 64

def bufferSize : Nat := 4096

def pathMax : Nat := 108

def sockStream : Nat := 1

inductive NamespaceKind where
  | filesystem
  | abstract
  deriving DecidableEq

/-- A `rucux_unix_ipc_address`. Only addresses of the family `AF_UNIX` are made; `path_length` is the
length of the path. -/
structure Address where
  kind : NamespaceKind
  path : List UInt8
  deriving DecidableEq

def validAddress (a : Address) : Bool := a.path.length ≤ pathMax

/-- The family, and the part of `sun_path` that counts, of the bytes at `addr`; `none` is a null pointer. -/
def translateAddressIn (addr : Option (Nat → UInt8)) (addrlen : Nat) : Option Address :=
  match addr with
  | none => none
  | some un =>
    if addrlen < 2 ∨ un 0 ≠ 1 ∨ un 1 ≠ 0 then none
    else
      let sunPath := (range (min (addrlen - 2) pathMax)).map fun i => un (2 + i)
      if sunPath.head? = some 0 then some ⟨.abstract,sunPath.drop 1⟩
      else
        let path := sunPath.takeWhile (· ≠ 0)
        if path = [] then none else some ⟨.filesystem,path⟩

def sockaddrUn (sunPath : List UInt8) (i : Nat) : UInt8 :=
  if i = 0 then 1 else if i = 1 then 0 else sunPath.getD (i - 2) 0

def translateAddressOut (address : Option Address) : Option (Nat × (Nat → UInt8)) :=
  match address with
  | none => some (2,sockaddrUn [])
  | some a =>
    if a.path.length + 1 > pathMax then none
    else some (2 + (a.path.length + 1),sockaddrUn (match a.kind with
      | .abstract => 0 :: a.path
      | .filesystem => a.path ++ [0]))

/-- `rx_head`, `rx_tail`, `rx_size` and `rx_buffer` -/
structure Ring where
  head : Nat
  tail : Nat
  size : Nat
  buffer : Nat → UInt8

def memcpy (dst : Nat → UInt8) (at_ : Nat) (src : List UInt8) : Nat → UInt8 :=
  fun i => if at_ ≤ i ∧ i < at_ + src.length then src.getD (i - at_) 0 else dst i

def Ring.write (r : Ring) (data : List UInt8) : Nat × Ring :=
  let capacity := bufferSize - r.size
  if capacity = 0 then (0,r)
  else
    let len := if data.length > capacity then capacity else data.length
    let contiguous := bufferSize - r.tail
    let first := if len > contiguous then contiguous else len
    let buffer := memcpy r.buffer r.tail (data.take first)
    let buffer := if len > first then memcpy buffer 0 ((data.take len).drop first) else buffer
    (len,{ r with buffer := buffer, tail := (r.tail + len) % bufferSize, size := r.size + len })

def Ring.read (r : Ring) (n : Nat) : List UInt8 × Ring :=
  let len := if n > r.size then r.size else n
  let contiguous := bufferSize - r.head
  let first := if len > contiguous then contiguous else len
  let data := (range first).map fun i => r.buffer (r.head + i)
  let data := if len > first then data ++ (range (len - first)).map r.buffer else data
  (data,{ r with head := (r.head + len) % bufferSize, size := r.size - len })

/-- The defaults are what `reset_socket` leaves. -/
structure LocalSocket where
  inUse : Bool := false
  type : Nat := 0
  refcount : Nat := 0
  listening : Bool := false
  address : Option Address := none
  peerIndex : Option Slot := none
  pendingIndex : Option Slot := none
  readShutdown : Bool := false
  writeShutdown : Bool := false
  peerClosed : Bool := false
  rx : Ring := ⟨0,0,0,fun _ => 0⟩

abbrev Pool := Slot → LocalSocket

namespace Pool

def set (p : Pool) (i : Slot) (f : LocalSocket → LocalSocket) : Pool := fun j => if j = i then f (p j) else p j

def allocSocketSlot (p : Pool) : Option (Slot × Pool) :=
  ((finRange 64).find? fun i => !(p i).inUse).map fun i =>
    (i,set p i fun _ => { inUse := true, refcount := 1 })

def detach (p : Pool) (index : Slot) (peer : Option Slot) : Pool :=
  match peer with
  | none => p
  | some j =>
    if (p j).inUse ∧ (p j).peerIndex = some index then
      set p j fun x => { x with peerIndex := none, peerClosed := true }
    else p

def releaseFrom : Nat → Slot → Pool → Pool
  | 0, _, p => p
  | fuel+1, index, p =>
    if !(p index).inUse then p
    else
      let socket := p index
      let p := set p index fun x => { x with inUse := false, refcount := 0 }
      let p := detach p index socket.peerIndex
      let p := match socket.pendingIndex with
        | none => p
        | some j =>
          if (p j).inUse ∧ (p j).refcount > 0 then releaseFrom fuel j (set p j fun x => { x with refcount := 1 })
          else p
      set p index fun _ => {}

def releaseSocketIndex (p : Pool) (index : Slot) : Pool := releaseFrom 64 index p

def addressInUse (p : Pool) (address : Address) : Bool :=
  (finRange 64).any fun i => (p i).inUse && (p i).address = some address

def findListener (p : Pool) (address : Address) (type : Nat) : Option Slot :=
  (finRange 64).find? fun i =>
    (p i).inUse && (p i).listening && (p i).type = type && (p i).address = some address

end Pool

structure Descriptor where
  thread : Nat
  fd : Nat
  slot : Slot
  deriving DecidableEq

structure Local where
  pool : Pool
  fds : List Descriptor

namespace Local

def getFdNode (s : Local) (thread fd : Nat) : Option Descriptor :=
  s.fds.find? fun d => d.thread = thread && d.fd = fd

def socketFromFd (s : Local) (thread fd : Nat) : Option Slot :=
  ((s.getFdNode thread fd).map (·.slot)).filter fun i => (s.pool i).inUse

/-- `alloc_fd` finds the free number `fd`, or fails. -/
def allocFd (s : Local) (thread : Nat) (fd : Option Nat) (i : Slot) : Option (Nat × Local) :=
  fd.bind fun fd =>
    if (s.getFdNode thread fd).isSome then none else some (fd,{ s with fds := ⟨thread,fd,i⟩ :: s.fds })

def setPool (s : Local) (pool : Pool) : Local := { s with pool := pool }

def setSocket (s : Local) (i : Slot) (f : LocalSocket → LocalSocket) : Local := s.setPool (s.pool.set i f)

def release (s : Local) (i : Slot) : Local := s.setPool (s.pool.releaseSocketIndex i)

def localClose (s : Local) (i : Slot) : Local :=
  if !(s.pool i).inUse || (s.pool i).refcount = 0 then s
  else
    let s := s.setSocket i fun x => { x with refcount := x.refcount - 1 }
    if (s.pool i).refcount = 0 then s.release i else s

def localOpen (s : Local) (i : Slot) : Local :=
  if (s.pool i).inUse then s.setSocket i fun x => { x with refcount := x.refcount + 1 } else s

def sysClose (s : Local) (thread fd : Nat) : Int × Local :=
  match s.getFdNode thread fd with
  | none => (-9,s)
  | some d => (0,{ s with fds := s.fds.erase d }.localClose d.slot)

def installNewSocketFd (s : Local) (thread : Nat) (fd : Option Nat) (i : Slot) : Int × Local :=
  match s.allocFd thread fd i with
  | none => (-1,s.release i)
  | some (fd,s) => (fd,s)

def sysSocket (s : Local) (thread type protocol : Nat) (fd : Option Nat) : Int × Local :=
  if protocol ≠ 0 ∨ type = 0 ∨ type > 3 then (-1,s)
  else
    match s.pool.allocSocketSlot with
    | none => (-1,s)
    | some (i,p) => (s.setPool (p.set i fun x => { x with type := type })).installNewSocketFd thread fd i

def handleSocketpair (s : Local) (thread type : Nat) (fd fd' : Option Nat) : Int × Local :=
  if type ≠ sockStream then (-1,s)
  else
    match s.pool.allocSocketSlot with
    | none => (-1,s)
    | some (i,p) =>
      match p.allocSocketSlot with
      | none => (-1,(s.setPool p).release i)
      | some (j,p) =>
        let p := p.set i fun x => { x with type := type, peerIndex := some j }
        let p := p.set j fun x => { x with type := type, peerIndex := some i }
        let (first,s) := (s.setPool p).installNewSocketFd thread fd i
        if first < 0 then (-1,s.release j)
        else
          let (second,s) := s.installNewSocketFd thread fd' j
          if second < 0 then (-1,(s.sysClose thread first.toNat).2) else (0,s)

def sysBind (s : Local) (thread fd : Nat) (addr : Option (Nat → UInt8)) (addrlen : Nat) : Int × Local :=
  match s.socketFromFd thread fd, translateAddressIn addr addrlen with
  | some i, some a =>
    if !validAddress a || (s.pool i).address.isSome || s.pool.addressInUse a then (-1,s)
    else (0,s.setSocket i fun x => { x with address := some a })
  | _, _ => (-1,s)

def sysListen (s : Local) (thread fd : Nat) : Int × Local :=
  match s.socketFromFd thread fd with
  | none => (-1,s)
  | some i =>
    if (s.pool i).address.isNone || (s.pool i).type ≠ sockStream then (-1,s)
    else (0,s.setSocket i fun x => { x with listening := true })

def sysAccept (s : Local) (thread fd : Nat) (new : Option Nat) : Int × Local :=
  match s.socketFromFd thread fd with
  | none => (-1,s)
  | some l =>
    match (if (s.pool l).listening then (s.pool l).pendingIndex else none) with
    | none => (-1,s)
    | some child => (s.setSocket l fun x => { x with pendingIndex := none }).installNewSocketFd thread new child

def sysConnect (s : Local) (thread fd : Nat) (addr : Option (Nat → UInt8)) (addrlen : Nat) : Int × Local :=
  match s.socketFromFd thread fd, translateAddressIn addr addrlen with
  | some client, some a =>
    if (s.pool client).type ≠ sockStream || (s.pool client).peerIndex.isSome || !validAddress a then (-1,s)
    else
      match s.pool.findListener a (s.pool client).type with
      | none => (-1,s)
      | some l =>
        if (s.pool l).pendingIndex.isSome then (-1,s)
        else
          match s.pool.allocSocketSlot with
          | none => (-1,s)
          | some (server,p) =>
            let p := p.set server fun x =>
              { x with type := (p client).type, peerIndex := some client, address := (p l).address }
            let p := p.set client fun x => { x with peerIndex := some server, peerClosed := false }
            (0,s.setPool (p.set l fun x => { x with pendingIndex := some server }))
  | _, _ => (-1,s)

/-- `how` is 0, 1 or 2 for reading, writing or both. -/
def sysShutdown (s : Local) (thread fd how : Nat) : Int × Local :=
  match s.socketFromFd thread fd with
  | none => (-1,s)
  | some i => (0,s.setSocket i fun x =>
      { x with
        readShutdown := x.readShutdown || how = 0 || how = 2
        writeShutdown := x.writeShutdown || how = 1 || how = 2 })

def receiver (s : Local) (i : Slot) : Option Slot :=
  if (s.pool i).type ≠ sockStream || (s.pool i).writeShutdown then none
  else (s.pool i).peerIndex.filter fun j => (s.pool j).inUse && !(s.pool j).readShutdown

def sysSend (s : Local) (thread fd : Nat) (data : List UInt8) : Int × Local :=
  match (s.socketFromFd thread fd).bind s.receiver with
  | none => (-1,s)
  | some j =>
    let (written,rx) := (s.pool j).rx.write data
    if written = 0 ∧ data.length ≠ 0 then (-1,s) else (written,s.setSocket j fun x => { x with rx := rx })

def sysRecv (s : Local) (thread fd n : Nat) : Int × List UInt8 × Local :=
  match (s.socketFromFd thread fd).filter fun i => (s.pool i).type = sockStream && !(s.pool i).readShutdown with
  | none => (-1,[],s)
  | some i =>
    if n = 0 then (0,[],s)
    else if (s.pool i).rx.size = 0 then (if (s.pool i).peerClosed then 0 else -1,[],s)
    else
      let (data,rx) := (s.pool i).rx.read n
      (data.length,data,s.setSocket i fun x => { x with rx := rx })

/-- `copy_fds`, for a thread without descriptors: every descriptor is copied and its node opened again. -/
def copyFds (s : Local) (source target : Nat) : Local :=
  if source = target ∨ s.fds.any (·.thread = target) then s
  else
    (s.fds.filter (·.thread = source)).foldl
      (fun s d => { s with fds := { d with thread := target } :: s.fds }.localOpen d.slot) s

inductive Event where
  | socket (thread type protocol : Nat) (fd : Option Nat)
  | socketpair (thread type : Nat) (fd fd' : Option Nat)
  | bind (thread fd : Nat) (addr : Option (Nat → UInt8)) (addrlen : Nat)
  | listen (thread fd : Nat)
  | connect (thread fd : Nat) (addr : Option (Nat → UInt8)) (addrlen : Nat)
  | accept (thread fd : Nat) (new : Option Nat)
  | shutdown (thread fd how : Nat)
  | send (thread fd : Nat) (data : List UInt8)
  | recv (thread fd n : Nat)
  | clone (source target : Nat)
  | close (thread fd : Nat)

def step (s : Local) : Event → Local
  | .socket thread type protocol fd => (s.sysSocket thread type protocol fd).2
  | .socketpair thread type fd fd' => (s.handleSocketpair thread type fd fd').2
  | .bind thread fd addr addrlen => (s.sysBind thread fd addr addrlen).2
  | .listen thread fd => (s.sysListen thread fd).2
  | .connect thread fd addr addrlen => (s.sysConnect thread fd addr addrlen).2
  | .accept thread fd new => (s.sysAccept thread fd new).2
  | .shutdown thread fd how => (s.sysShutdown thread fd how).2
  | .send thread fd data => (s.sysSend thread fd data).2
  | .recv thread fd n => (s.sysRecv thread fd n).2.2
  | .clone source target => s.copyFds source target
  | .close thread fd => (s.sysClose thread fd).2

def machine : Machine Local Event where
  initial := ⟨fun _ => {},[]⟩
  step := step

theorem socketFromFd_eq_some {s : Local} {thread fd : Nat} {i : Slot} : s.socketFromFd thread fd = some i ↔
    (∃ d, s.getFdNode thread fd = some d ∧ d.slot = i) ∧ (s.pool i).inUse = true := by
  simp [socketFromFd,filter_eq_some_iff]

@[simp] theorem setSocket_pool (s : Local) (i : Slot) (f : LocalSocket → LocalSocket) (j : Slot) :
    (s.setSocket i f).pool j = if j = i then f (s.pool j) else s.pool j := rfl

theorem setSocket_congr {s : Local} {i : Slot} {f g : LocalSocket → LocalSocket} (h : f (s.pool i) = g (s.pool i)) :
    s.setSocket i f = s.setSocket i g := by
  refine congrArg s.setPool (funext fun k => ?_)
  by_cases hk : k = i
  · simp [Pool.set,hk,h]
  · simp [Pool.set,hk]

theorem receiver_eq_some {s : Local} {i j : Slot} : s.receiver i = some j ↔ (s.pool i).type = sockStream ∧
    (s.pool i).writeShutdown = false ∧ (s.pool i).peerIndex = some j ∧ (s.pool j).inUse = true ∧
    (s.pool j).readShutdown = false := by
  unfold receiver
  split
  · grind
  rename_i h
  simp only [ne_eq,Bool.or_eq_true,decide_eq_true_eq,not_or,Decidable.not_not,Bool.not_eq_true] at h
  simp [filter_eq_some_iff,h]

section
variable (s : Local) (thread : Nat) (fd : Nat)

theorem sysBind_cases (addr : Option (Nat → UInt8)) (addrlen : Nat) :
    s.sysBind thread fd addr addrlen = (-1,s) ∨ ∃ i a, s.socketFromFd thread fd = some i ∧
      translateAddressIn addr addrlen = some a ∧ (s.pool i).address = none ∧ s.pool.addressInUse a = false ∧
      s.sysBind thread fd addr addrlen = (0,s.setSocket i fun x => { x with address := some a }) := by
  unfold sysBind
  split
  · rename_i i a hi ha
    split
    · exact Or.inl rfl
    rename_i hg
    simp only [Bool.or_eq_true,not_or,Bool.not_eq_true,isSome_eq_false_iff,isNone_iff_eq_none] at hg
    exact Or.inr ⟨i,a,hi,ha,hg.1.2,hg.2,rfl⟩
  · exact Or.inl rfl

theorem sysListen_cases : s.sysListen thread fd = (-1,s) ∨ ∃ i, s.socketFromFd thread fd = some i ∧
      s.sysListen thread fd = (0,s.setSocket i fun x => { x with listening := true }) := by
  unfold sysListen
  split
  · exact Or.inl rfl
  rename_i i hi
  split
  · exact Or.inl rfl
  · exact Or.inr ⟨i,hi,rfl⟩

theorem sysSend_cases (data : List UInt8) : s.sysSend thread fd data = (-1,s) ∨
    ∃ c j, s.socketFromFd thread fd = some c ∧ s.receiver c = some j ∧
      s.sysSend thread fd data = ((((s.pool j).rx.write data).1 : Int),
        s.setSocket j fun x => { x with rx := (x.rx.write data).2 }) := by
  unfold sysSend
  split
  · exact Or.inl rfl
  rename_i j hj
  obtain ⟨c,hc,hr⟩ := bind_eq_some_iff.mp hj
  simp only
  split
  · exact Or.inl rfl
  · exact Or.inr ⟨c,j,hc,hr,Prod.ext rfl (setSocket_congr rfl)⟩

theorem sysRecv_cases (n : Nat) : (s.sysRecv thread fd n).2 = ([],s) ∨
    ∃ i, s.socketFromFd thread fd = some i ∧ (s.sysRecv thread fd n).2 =
      (((s.pool i).rx.read n).1,s.setSocket i fun x => { x with rx := (x.rx.read n).2 }) := by
  unfold sysRecv
  split
  · exact Or.inl rfl
  rename_i i hi
  split
  · exact Or.inl rfl
  split
  · exact Or.inl rfl
  · exact Or.inr ⟨i,(filter_eq_some_iff.mp hi).1,Prod.ext rfl (setSocket_congr rfl)⟩

end

end Local
end Rucux.Ipc
