import Rucux.Lib.Machine
import Mathlib.Algebra.Order.Ring.Nat

/-! The buddy allocator of physical pages. A free block is linked through its own first words, so a free list
is the list of the addresses on it, the head first. -/

namespace Rucux.Memory
open Lib Function

def pageSize : Nat := 4096

def maxOrder : Nat := 10

structure Buddy where
  freeLists : Nat → List Nat
  base : Nat
  totalPages : Nat
  freePages : Nat

namespace Buddy

def orderLoop (count : Nat) : Nat → Nat → Nat → Nat
  | 0, _, order => order
  | n+1, size, order => if size < count then orderLoop count n (size*2) (order+1) else order

def pagesToOrder (count : Nat) : Nat :=
  if count ≤ 1 then 0
  else if count > 2^maxOrder then maxOrder+1
  else orderLoop count maxOrder 1 0

def buddyOf (addr order : Nat) : Nat := addr ^^^ (pageSize <<< order)

def link (f : Nat → List Nat) (order addr : Nat) : Nat → List Nat :=
  update f order (addr :: f order)

def unlink (f : Nat → List Nat) (order addr : Nat) : Nat → List Nat :=
  update f order ((f order).erase addr)

def fitOrder (addr remaining : Nat) : Nat → Nat
  | 0 => 0
  | order+1 =>
    if 2^(order+1) ≤ remaining ∧ addr % (2^(order+1)*pageSize) = 0 then order+1
    else fitOrder addr remaining order

def fill : Nat → Nat → Nat → (Nat → List Nat) → Nat → (Nat → List Nat) × Nat
  | 0, _, _, f, free => (f,free)
  | n+1, addr, remaining, f, free =>
    if remaining = 0 then (f,free)
    else
      let order := fitOrder addr remaining maxOrder
      fill n (addr + 2^order*pageSize) (remaining - 2^order) (link f order addr) (free + 2^order)

def init (base totalPages : Nat) : Buddy :=
  let filled := fill totalPages base totalPages (fun _ => []) 0
  ⟨filled.1,base,totalPages,filled.2⟩

def findOrder (f : Nat → List Nat) (order : Nat) : Option Nat :=
  (List.range' order (maxOrder+1 - order)).find? fun k => !(f k).isEmpty

def splitDown (order addr : Nat) : Nat → (Nat → List Nat) → Nat → List Nat
  | 0, f => f
  | current+1, f =>
    if order < current+1 then
      splitDown order addr current (link f current (addr + (pageSize <<< current)))
    else f

def alloc (b : Buddy) (order : Nat) : Nat × Buddy :=
  if order > maxOrder then (0,b)
  else
    match findOrder b.freeLists order with
    | none => (0,b)
    | some current =>
      match b.freeLists current with
      | [] => (0,b)
      | addr :: rest =>
        (addr,{ b with
          freeLists := splitDown order addr current (update b.freeLists current rest)
          freePages := b.freePages - 2^order })

def coalesce : Nat → (Nat → List Nat) → Nat → Nat → (Nat → List Nat) × Nat × Nat
  | 0, f, addr, order => (f,addr,order)
  | n+1, f, addr, order =>
    if buddyOf addr order ∈ f order then
      coalesce n (unlink f order (buddyOf addr order))
        (if buddyOf addr order < addr then buddyOf addr order else addr) (order+1)
    else (f,addr,order)

def owns (b : Buddy) (addr order : Nat) : Bool :=
  !(addr = 0 || order > maxOrder || addr < b.base || addr % (pageSize <<< order) ≠ 0 ||
    (addr - b.base) / pageSize ≥ b.totalPages ||
    2^order > b.totalPages - (addr - b.base) / pageSize)

def free (b : Buddy) (addr order : Nat) : Buddy :=
  if b.owns addr order then
    let merged := coalesce (maxOrder - order) b.freeLists addr order
    { b with
      freeLists := link merged.1 merged.2.2 merged.2.1
      freePages := b.freePages + 2^order }
  else b

def allocPage (b : Buddy) : Nat × Buddy := b.alloc 0

def freePage (b : Buddy) (addr : Nat) : Buddy := b.free addr 0

def allocPages (b : Buddy) (count : Nat) : Nat × Buddy :=
  if count = 0 then (0,b) else b.alloc (pagesToOrder count)

inductive Event where
  | alloc (order : Nat)
  | free (addr order : Nat)

structure World where
  buddy : Buddy
  live : List (Nat × Nat)

def World.step (w : World) : Event → World
  | .alloc order =>
    let r := w.buddy.alloc order
    ⟨r.2,if r.1 = 0 then w.live else (r.1,order) :: w.live⟩
  | .free addr order => ⟨w.buddy.free addr order,w.live.erase (addr,order)⟩

def machine (base totalPages : Nat) : Machine World Event := ⟨⟨init base totalPages,[]⟩,World.step⟩

def World.Valid (w : World) : Event → Prop
  | .alloc _ => True
  | .free addr order => (addr,order) ∈ w.live

instance (w : World) : (e : Event) → Decidable (w.Valid e)
  | .alloc _ => .isTrue trivial
  | .free addr order => inferInstanceAs (Decidable ((addr,order) ∈ w.live))

end Buddy
end Rucux.Memory
