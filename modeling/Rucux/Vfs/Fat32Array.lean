import Rucux.Vfs.Fat32Names

namespace Rucux.Vfs.Fat32
open Rucux.Lib List

def contents (info : Info) (cs : List Nat) (d : Disk) (v : Vnode) : List UInt8 :=
  (range (eof d v)).map (fileByte info cs d)

@[simp] theorem length_contents (info : Info) (cs : List Nat) (d : Disk) (v : Vnode) :
    (contents info cs d v).length = eof d v := by
  simp [contents]

section
variable {info : Info} {cs : List Nat} {d : Disk} {v : Vnode}

theorem getElem?_contents {p : Nat} (hp : p < eof d v) :
    (contents info cs d v)[p]? = some (fileByte info cs d p) := by
  simp [contents,getElem?_range hp]

theorem contents_congr {d' : Disk} (he : eof d' v = eof d v)
    (hb : ∀ p < eof d v, fileByte info cs d' p = fileByte info cs d p) :
    contents info cs d' v = contents info cs d v := by
  unfold contents
  rw [he]
  exact map_congr_left fun p hp => hb p (mem_range.mp hp)

end

/-- Bytes of the request were written into the array and behind it; every new byte is one of them. -/
structure Rewritten (bytes : Nat → UInt8) (offset size : Nat) (xs ys : List UInt8) : Prop where
  length_le : xs.length ≤ ys.length
  bytes : ∀ p < ys.length, p < xs.length ∧ ys[p]? = xs[p]? ∨
    offset ≤ p ∧ p < offset + size ∧ ys[p]? = some (bytes (p - offset))

def Acknowledged (bytes : Nat → UInt8) (offset size : Nat) (result : Int) (ys : List UInt8) : Prop :=
  0 < result → ∃ n : Nat, result = n ∧ n ≤ size ∧ ∀ j < n, ys[offset+j]? = some (bytes j)

def Undisturbed (r : Done) : Prop :=
  r.event.acquired = true ∧ ∀ x ∈ r.trace, x.failedRead = false

def Permits (capacity : Nat) (xs : List UInt8) (r : Done) (ys : List UInt8) : Prop :=
  match r.event.call with
  | .read offset size _ => ys = xs ∧ (0 < r.reply.result → ∃ n : Nat, r.reply.result = n ∧ n ≤ size ∧
      offset + n ≤ xs.length ∧ r.reply.bytes = (xs.drop offset).take n)
  | .write offset size buffer =>
      (ys = xs ∧ r.reply.result ≤ 0 ∨ ∃ bytes, buffer = some bytes ∧ offset ≤ xs.length ∧
        Rewritten bytes offset size xs ys ∧ Acknowledged bytes offset size r.reply.result ys) ∧
      (Undisturbed r → 0 < size → buffer.isSome → offset + size < 2^32 →
        (xs.length < offset → ys = xs ∧ r.reply.result = -95) ∧
        (offset ≤ xs.length → capacity ≤ offset → ys = xs ∧ r.reply.result = -28))
  | .append size buffer => ys = xs ∧ r.reply.result ≤ 0 ∨ ∃ bytes, buffer = some bytes ∧ ∃ n ≤ size,
      ys = xs ++ (range n).map bytes ∧
      (r.reply.result < 0 ∨ r.reply.result = n ∧ 0 < n ∧ r.reply.endOffset = some (xs.length + n))
  | .truncate length => r.reply.result ≤ 0 ∧
      (ys = xs ∧ (r.reply.result = 0 → length = xs.length) ∨ length < xs.length ∧ ys = xs.take length) ∧
      (Undisturbed r → xs.length < length → ys = xs ∧ r.reply.result = -95)
  | _ => ys = xs

def SameEntry (f v : Vnode) : Prop :=
  v.type = .regular ∧ v.directoryLba = f.directoryLba ∧ v.directoryOffset = f.directoryOffset

/-- One array goes through all the calls on vnodes of the file. -/
inductive History (capacity : Nat) (f : Vnode) : List UInt8 → List Done → List UInt8 → Prop where
  | start (xs : List UInt8) : History capacity f xs [] xs
  | other {xs ys : List UInt8} {log : List Done} {r : Done} (h : History capacity f xs log ys)
      (hr : ¬SameEntry f r.vnode) : History capacity f xs (log ++ [r]) ys
  | call {xs ys zs : List UInt8} {log : List Done} {r : Done} (h : History capacity f xs log ys)
      (hr : SameEntry f r.vnode) (hp : Permits capacity ys r zs) : History capacity f xs (log ++ [r]) zs

section Effects
variable {info : Info} {root : Vnode} {d₀ d d' : Disk} {v : Vnode} {cs : List Nat}
  {bytes : Nat → UInt8} {offset size ack : Nat}

section
variable (h : Grown info cs v bytes offset size d d' ack)
include h

theorem Grown.contents (hsep : Separate info root d₀) (hl : Layout info) (hroot : root.type = .directory)
    (hv : Named info root d₀ v cs) (ht : v.type = .regular) (hev : Evolved info root d₀ d)
    (hoff : offset ≤ eof d v) (hroom : offset + size ≤ v.allocatedBytes) (h32 : offset + size < 2^32) :
    Rewritten bytes offset size (contents info cs d v) (contents info cs d' v) ∧
      Acknowledged bytes offset size (countOr5 ack) (contents info cs d' v) := by
  obtain ⟨d₁,n,hw,hst,hn,hack,_,hd⟩ := h
  have hcap := hv.counted.capacity
  have hle := hev.sizes v cs hv ht
  have heof : eof d₁ v = eof d v := by
    unfold eof
    rw [hw.dirSector hsep hl hv ht (hv.dirSector hroot ht)]
  -- the new end and the bytes before it
  obtain ⟨e,he,hbyte,hge,hout⟩ : ∃ e, eof d' v = e ∧
      (∀ p < v.allocatedBytes, fileByte info cs d' p = fileByte info cs d₁ p) ∧
      eof d v ≤ e ∧ (eof d v = e ∧ offset + ack ≤ e ∨ e = offset + n) := by
    rcases hd with ⟨rfl,hin⟩ | ⟨hgrow,rfl⟩
    · exact ⟨eof d v,heof,fun _ _ => rfl,le_rfl,.inl ⟨rfl,hin⟩⟩
    exact ⟨offset + n,eof_published d d₁ v (by omega),
      fun p hp => fileByte_published hsep hl hroot hv ht hv ht d d₁ _ (by omega),by omega,.inr rfl⟩
  have hget : ∀ p < e, (Fat32.contents info cs d' v)[p]? = some (fileByte info cs d₁ p) := by
    intro p hp
    rw [getElem?_contents (by omega),hbyte p (by omega)]
  refine ⟨⟨by simpa [he] using hge,fun p hp => ?_⟩,fun hpos => ?_⟩
  · rw [length_contents,he] at hp
    rw [hget p hp,length_contents]
    by_cases hold : p < eof d v
    · rcases hw.bytes p (by omega) with hb | ⟨h1,h2,hb⟩
      · exact .inl ⟨hold,by rw [getElem?_contents hold,hb]⟩
      · exact .inr ⟨h1,h2,by rw [hb]⟩
    refine .inr ⟨by omega,by omega,?_⟩
    have := hst (p - offset) (by omega)
    rw [Nat.add_sub_cancel' (by omega)] at this
    rw [this]
  have hack0 : ack ≠ 0 := by
    rintro rfl
    simp [countOr5] at hpos
  refine ⟨ack,by simp [countOr5,hack0],by omega,fun j hj => ?_⟩
  rw [hget (offset+j) (by omega),hst j (by omega)]

theorem Grown.changed (hroom : offset + size ≤ v.allocatedBytes) (h32 : offset + size < 2^32) :
    Changed info cs v d d' := by
  obtain ⟨d₁,n,hw,_,hn,_,_,⟨rfl,_⟩ | ⟨_,rfl⟩⟩ := h
  · exact ⟨bytes,offset,size,d',hw,.inl rfl⟩
  · exact ⟨bytes,offset,size,d₁,hw,.inr ⟨offset+n,by omega,by omega,rfl⟩⟩

end

theorem Rewritten.mono {size' : Nat} {xs ys : List UInt8} (h : Rewritten bytes offset size xs ys)
    (hle : size ≤ size') : Rewritten bytes offset size' xs ys := by
  refine ⟨h.length_le,fun p hp => ?_⟩
  rcases h.bytes p hp with h1 | ⟨h1,h2,h3⟩
  · exact .inl h1
  · exact .inr ⟨h1,by omega,h3⟩

theorem Acknowledged.mono {size' : Nat} {result : Int} {ys : List UInt8}
    (h : Acknowledged bytes offset size result ys) (hle : size ≤ size') :
    Acknowledged bytes offset size' result ys := by
  intro hpos
  obtain ⟨n,h1,h2,h3⟩ := h hpos
  exact ⟨n,h1,by omega,h3⟩

theorem contents_slice {n : Nat} (h : offset + n ≤ eof d v) :
    ((contents info cs d v).drop offset).take n =
      (range n).map fun j => fileByte info cs d (offset + j) := by
  apply ext_getElem
  · simp; omega
  intro j h1 h2
  simp [contents]

theorem Grown.append (h : Grown info cs v bytes (eof d v) size d d' ack) (hsep : Separate info root d₀)
    (hl : Layout info) (hroot : root.type = .directory) (hv : Named info root d₀ v cs)
    (ht : v.type = .regular)
    (hroom : eof d v + size ≤ v.allocatedBytes) (h32 : eof d v + size < 2^32) :
    ∃ n ≤ size, Fat32.contents info cs d' v = Fat32.contents info cs d v ++ (range n).map bytes ∧
      (ack = 0 ∨ ack = n) := by
  obtain ⟨d₁,n,hw,hst,hn,_,hack,hd⟩ := h
  have hcap := hv.counted.capacity
  have heof : eof d₁ v = eof d v := by
    unfold eof
    rw [hw.dirSector hsep hl hv ht (hv.dirSector hroot ht)]
  have hold : ∀ p < eof d v, fileByte info cs d₁ p = fileByte info cs d p := fun p hp =>
    (hw.bytes p (by omega)).resolve_right fun h => by omega
  rcases hd with ⟨rfl,hin⟩ | ⟨hgrow,rfl⟩
  · refine ⟨0,Nat.zero_le _,?_,.inl (by omega)⟩
    rw [contents_congr heof hold]
    simp
  refine ⟨n,hn,?_,by omega⟩
  have hbyte : ∀ p < v.allocatedBytes, fileByte info cs (published d v d₁ (eof d v + n)) p =
      fileByte info cs d₁ p :=
    fun p hp => fileByte_published hsep hl hroot hv ht hv ht d d₁ _ (by omega)
  simp only [Fat32.contents,eof_published d d₁ v (show eof d v + n < 2^32 by omega),range_add,
    map_append,map_map]
  congr 1
  · refine map_congr_left fun p hp => ?_
    have hp := mem_range.mp hp
    rw [hbyte p (by omega),hold p hp]
  refine map_congr_left fun j hj => ?_
  have hj := mem_range.mp hj
  rw [Function.comp_apply,hbyte _ (by omega),hst j hj]

theorem contents_truncated (hsep : Separate info root d₀) (hl : Layout info)
    (hroot : root.type = .directory) (hv : Named info root d₀ v cs) (ht : v.type = .regular)
    (hev : Evolved info root d₀ d) {length : Nat} (hlt : length < eof d v) :
    Fat32.contents info cs (published d v d length) v = (Fat32.contents info cs d v).take length := by
  have hcap := hv.counted.capacity
  have hle := hev.sizes v cs hv ht
  have h32 : eof d v < 2^32 := read32_lt _ _
  unfold Fat32.contents
  rw [eof_published d d v (by omega),← map_take,take_range,Nat.min_eq_left (by omega)]
  refine map_congr_left fun p hp => ?_
  have hp := mem_range.mp hp
  exact fileByte_published hsep hl hroot hv ht hv ht d d _ (by omega)

theorem append_fits (hev : Evolved info root d₀ d) (hv : Named info root d₀ v cs)
    (ht : v.type = .regular) (size : Nat) :
    eof d v + min size (min v.allocatedBytes uint32Max - eof d v) ≤ v.allocatedBytes ∧
      eof d v + min size (min v.allocatedBytes uint32Max - eof d v) < 2^32 := by
  have hle := hev.sizes v cs hv ht
  have h32 : eof d v < 2^32 := read32_lt _ _
  have hmax : uint32Max = 4294967295 := rfl
  omega

end Effects

section Calls
variable {info : Info} {root : Vnode} {d₀ d d' : Disk} {v : Vnode} {cs : List Nat} {E : Terms Sector}
  {acquired : Bool} {n : Nat} {reply : Reply} {call : Call}

section
variable (h : Effect info cs { v with length := n } E acquired d reply d' call)
include h

theorem Effect.changed (hev : Evolved info root d₀ d) (hv : Named info root d₀ v cs) :
    d' = d ∨ v.type = .regular ∧ Changed info cs v d d' := by
  cases call with
  | lookup name allocated => exact .inl h.1
  | read offset size buffer => exact .inl h.1
  | write offset size buffer =>
    obtain ⟨_,⟨hd,_⟩ | ⟨bytes,ack,ht,_,hoff,hlt,h32,hg,_⟩⟩ := h
    · exact .inl hd
    · exact .inr ⟨ht,Grown.changed hg (by simp only at hlt ⊢; omega) (by simp only; omega)⟩
  | append size buffer =>
    obtain ⟨_,⟨hd,_⟩ | ⟨bytes,ack,ht,_,hg,_⟩⟩ := h
    · exact .inl hd
    · exact .inr ⟨ht,Grown.changed hg (append_fits hev hv ht size).1 (append_fits hev hv ht size).2⟩
  | truncate length =>
    obtain ⟨_,_,⟨hd,_⟩ | ⟨ht,hlt,rfl⟩,_⟩ := h
    · exact .inl hd
    have h32 : eof d v < 2^32 := read32_lt _ _
    have hle := hev.sizes v cs hv ht
    have hlt : length < eof d v := hlt
    exact .inr ⟨ht,fun _ => 0,0,0,d,.refl,.inr ⟨length,by omega,by omega,rfl⟩⟩
  | refreshMetadata => exact .inl h.1
  | fsync => exact .inl h.1

theorem Effect.permits (hsep : Separate info root d₀) (hl : Layout info) (hroot : root.type = .directory)
    (hev : Evolved info root d₀ d) (hv : Named info root d₀ v cs) (ht : v.type = .regular) {node : Nat}
    {fates : List Fate} {trace : List (Access Sector)}
    (hE : (∀ x ∈ trace, x.failedRead = false) → E.readFails = false) :
    Permits (cs.length * clusterBytes info) (contents info cs d v)
      ⟨{ v with length := n },⟨node,call,acquired,fates⟩,reply,trace⟩ (contents info cs d' v) := by
  have hcap : v.allocatedBytes = cs.length * clusterBytes info := hv.counted.capacity
  have hclear : Undisturbed ⟨{ v with length := n },⟨node,call,acquired,fates⟩,reply,trace⟩ →
      Clear E acquired d { v with length := n } := fun hu =>
    have hi := hev.intact hl hroot hv ht
    ⟨hu.1,hE hu.2,⟨hi.regular,hi.placed,hi.used,hi.file,hi.start,hi.eof_le⟩⟩
  cases call with
  | lookup name allocated => exact congrArg (contents info cs · v) h.1
  | refreshMetadata => exact congrArg (contents info cs · v) h.1
  | fsync => exact congrArg (contents info cs · v) h.1
  | read offset size buffer =>
    obtain ⟨rfl,_,h⟩ := h
    refine ⟨rfl,fun hpos => ?_⟩
    rcases h with h | ⟨k,hk,_,hle,hin,hbytes⟩
    · exact absurd hpos (not_lt.mpr h)
    have hin : offset + k ≤ eof d' v := hin
    exact ⟨k,hk,hle,by simpa using hin,by rw [hbytes,contents_slice hin]⟩
  | write offset size buffer =>
    obtain ⟨_,⟨rfl,hres,hcodes⟩ | ⟨bytes,ack,_,rfl,hoff,hlt,h32,hg,hres⟩⟩ := h
    · refine ⟨.inl ⟨rfl,hres⟩,fun hu h1 h2 h3 => ?_⟩
      rw [length_contents]
      rcases hcodes (hclear hu) h1 h2 h3 with ⟨hgap,hcode⟩ | ⟨hin,hfull,hcode⟩
      · exact ⟨fun _ => ⟨rfl,hcode⟩,fun hle => absurd hgap (Nat.not_lt.mpr hle)⟩
      · exact ⟨fun hgap => absurd hin (Nat.not_le.mpr hgap),fun _ _ => ⟨rfl,hcode⟩⟩
    have hoff : offset ≤ eof d v := hoff
    have hlt : offset < v.allocatedBytes := hlt
    have hg : Grown info cs v bytes offset (min size (v.allocatedBytes - offset)) d d' ack := hg
    have hle : min size (v.allocatedBytes - offset) ≤ size := Nat.min_le_left _ _
    obtain ⟨hrew,hack⟩ := Grown.contents hg hsep hl hroot hv ht hev hoff
      (show offset + min size (v.allocatedBytes - offset) ≤ v.allocatedBytes by omega)
      (show offset + min size (v.allocatedBytes - offset) < 2^32 by omega)
    rw [← hres] at hack
    refine ⟨.inr ⟨bytes,rfl,by simpa using hoff,hrew.mono hle,hack.mono hle⟩,fun _ _ _ _ => ?_⟩
    rw [length_contents,← hcap]
    exact ⟨fun hgap => by omega,fun _ hfull => by omega⟩
  | append size buffer =>
    obtain ⟨_,⟨rfl,hres⟩ | ⟨bytes,ack,_,rfl,hg,hres,hlast⟩⟩ := h
    · exact .inl ⟨rfl,hres⟩
    have hg : Grown info cs v bytes (eof d v)
        (min size (min v.allocatedBytes uint32Max - eof d v)) d d' ack := hg
    obtain ⟨k,hk,hcont,hack⟩ := Grown.append hg hsep hl hroot hv ht (append_fits hev hv ht size).1
      (append_fits hev hv ht size).2
    refine .inr ⟨bytes,rfl,k,hk.trans (Nat.min_le_left _ _),hcont,?_⟩
    by_cases h0 : ack = 0
    · exact .inl (by rw [hres,h0]; decide)
    obtain rfl : ack = k := hack.resolve_left h0
    refine .inr ⟨by rw [hres]; simp [countOr5,h0],by omega,?_⟩
    rw [length_contents]
    exact hlast (by omega)
  | truncate length =>
    obtain ⟨_,hres,hd,hcode⟩ := h
    refine ⟨hres,?_,fun hu hlt => ?_⟩
    · rcases hd with ⟨rfl,hzero⟩ | ⟨_,hlt,rfl⟩
      · exact .inl ⟨rfl,fun h0 => (hzero h0).trans (length_contents _ _ _ _).symm⟩
      have hlt : length < eof d v := hlt
      exact .inr ⟨by simpa using hlt,contents_truncated hsep hl hroot hv ht hev hlt⟩
    rw [length_contents] at hlt
    refine ⟨?_,hcode (hclear hu) hlt⟩
    rcases hd with ⟨rfl,_⟩ | ⟨_,hlt',_⟩
    · rfl
    have hlt' : length < eof d v := hlt'
    omega

end

theorem Changed.other_contents {u : Vnode} {us : List Nat} (h : Changed info cs v d d')
    (hsep : Separate info root d₀) (hl : Layout info) (hroot : root.type = .directory)
    (hev : Evolved info root d₀ d) (hv : Named info root d₀ v cs) (ht : v.type = .regular)
    (hu : Named info root d₀ u us) (ht' : u.type = .regular)
    (hne : (v.directoryLba,v.directoryOffset) ≠ (u.directoryLba,u.directoryOffset)) :
    contents info us d' u = contents info us d u := by
  have hle := hev.sizes u us hu ht'
  have hcap := hu.counted.capacity
  exact contents_congr (h.other_eof hsep hl hroot hv ht hu ht' hne)
    fun p hp => h.other_byte hsep hl hroot hv ht hu ht' hne (by omega)

end Calls

/-- What holds of the volume after any calls: every vnode is one of a name, with some size cached. -/
structure Live (info : Info) (root : Vnode) (d₀ : Disk) (w : Volume) : Prop where
  evolved : Evolved info root d₀ w.disk
  nodes : ∀ u ∈ w.nodes, ∃ v cs n, Named info root d₀ v cs ∧ u = { v with length := n }

/-- Nothing is asked of the commands; reads fail if one of them did. -/
def lenient (trace : List (Access Sector)) : Terms Sector where
  readFails := trace.any Access.failedRead
  writeFails := true
  mayRead _ := True
  mayWrite _ _ _ := True
  safe _ := True

section Runs
variable {info : Info} {root : Vnode} {d₀ : Disk} {w : Volume}

theorem lenient_allowed (cs : List Nat) (v : Vnode) (d : Disk) (trace : List (Access Sector))
    (call : Call) : Allowed info cs v d (lenient trace) call := by
  have hg : ∀ bytes offset size, Guarded info cs v bytes offset size d (lenient trace) :=
    fun _ _ _ => ⟨fun _ _ => trivial,fun _ _ _ _ _ => trivial,fun _ _ _ => trivial,
      fun _ _ _ _ _ _ _ => trivial⟩
  cases call with
  | write offset size buffer => exact fun bytes _ _ _ _ => hg bytes _ _
  | append size buffer => exact fun bytes _ => hg bytes _ _
  | truncate length => exact fun _ => ⟨trivial,fun _ => trivial⟩
  | _ => trivial

theorem Evolved.effect {d : Disk} (h : Evolved info root d₀ d) (hl : Layout info) {v : Vnode}
    {cs : List Nat} (hv : Named info root d₀ v cs) (n : Nat) (e : Event) :
    Effect info cs { v with length := n }
      (lenient ((e.call.program info { v with length := n } e.acquired).exec d e.fates).trace) e.acquired
      d ((e.call.program info { v with length := n } e.acquired).exec d e.fates).value
      ((e.call.program info { v with length := n } e.acquired).exec d e.fates).disk e.call := by
  have hc := hv.counted.congr h.tables hl
  have hcn : Counted info d { v with length := n } cs := ⟨hc.chain,hc.length_le,hc.capacity⟩
  refine ((program_meets hl hcn hv.nonempty
    ⟨⟨fun _ _ => trivial,fun _ _ _ _ => trivial⟩,fun _ => trivial,trivial⟩ e.acquired e.call
    fun _ => lenient_allowed cs _ d _ e.call).exec e.fates fun x hx => ⟨fun hf => ?_,fun hf => ?_⟩).ends
  · simpa using any_eq_false.mp hf x hx
  · cases hf

section
variable (hsep : Separate info root d₀) (hl : Layout info) (hroot : root.type = .directory)
include hsep hl hroot

theorem step_live (h : Live info root d₀ w) (e : Event) : Live info root d₀ (step info w e) := by
  unfold step
  cases hu : w.nodes[e.node]? with
  | none => exact h
  | some u =>
    obtain ⟨v,cs,n,hv,rfl⟩ := h.nodes u (mem_of_getElem? hu)
    have heff := h.evolved.effect hl hv n e
    refine ⟨?_,fun x hx => ?_⟩
    · rcases heff.changed h.evolved hv with hd | ⟨ht,hc⟩
      · simp only [hd]
        exact h.evolved
      · exact hc.evolved h.evolved hsep hl hroot hv ht
    rcases mem_append.mp hx with hx | hx
    · rcases mem_or_eq_of_mem_set hx with hx | rfl
      · exact h.nodes x hx
      · exact ⟨v,cs,_,hv,rfl⟩
    obtain ⟨_,ht,target,allocated,hf⟩ := heff.found (Option.mem_toList.mp hx)
    -- the name led to the same entry when the volume was mounted
    rw [h.evolved.found hl hroot hv ht] at hf
    cases hf₀ : found info d₀ cs target allocated with
    | error code => rw [hf₀] at hf; cases hf
    | ok c =>
      rw [hf₀] at hf
      obtain rfl := Except.ok.inj hf
      obtain ⟨us,hchild⟩ := found_child hf₀
      exact ⟨c,us,_,.child hv ht hf₀ hchild,rfl⟩

theorem step_history (h : Live info root d₀ w) {f : Vnode} {cs : List Nat} (hf : Named info root d₀ f cs)
    (ht : f.type = .regular) {xs : List UInt8}
    (hh : History (cs.length * clusterBytes info) f xs w.log (contents info cs w.disk f)) (e : Event) :
    History (cs.length * clusterBytes info) f xs (step info w e).log
      (contents info cs (step info w e).disk f) := by
  unfold step
  cases hu : w.nodes[e.node]? with
  | none => exact hh
  | some u =>
    obtain ⟨v,vs,n,hv,rfl⟩ := h.nodes u (mem_of_getElem? hu)
    have heff := h.evolved.effect hl hv n e
    by_cases hsame : SameEntry f v
    · obtain ⟨rfl,rfl⟩ := hv.unique hf hroot hsame.1 ht hsame.2.1 hsame.2.2
      refine .call hh hsame (heff.permits hsep hl hroot h.evolved hv ht fun hx => ?_)
      simpa [lenient] using hx
    have hkeep : contents info cs
        ((e.call.program info { v with length := n } e.acquired).exec w.disk e.fates).disk f =
        contents info cs w.disk f := by
      rcases heff.changed h.evolved hv with hd | ⟨ht',hc⟩
      · rw [hd]
      refine hc.other_contents hsep hl hroot h.evolved hv ht' hf ht fun he => hsame ?_
      simp only [Prod.mk.injEq] at he
      exact ⟨ht',he.1,he.2⟩
    simp only [hkeep]
    exact .other hh hsame

theorem run_live {ds : List Nat} (hds : Named info root d₀ root ds) {f : Vnode} {cs : List Nat}
    (hf : Named info root d₀ f cs) (ht : f.type = .regular) (es : List Event) :
    Live info root d₀ ((machine info root d₀).run es) ∧
      History (cs.length * clusterBytes info) f (contents info cs d₀ f)
        ((machine info root d₀).run es).log (contents info cs ((machine info root d₀).run es).disk f) :=
  (machine info root d₀).run_invariant (I := fun w => Live info root d₀ w ∧
      History (cs.length * clusterBytes info) f (contents info cs d₀ f) w.log (contents info cs w.disk f))
    ⟨⟨.refl hroot,fun _ hu => ⟨root,ds,root.length,hds,mem_singleton.mp hu⟩⟩,.start _⟩
    (fun _ e h => ⟨step_live hsep hl hroot h.1 e,step_history hsep hl hroot h.1 hf ht h.2 e⟩) es

end

end Runs

open Rucux.Lib.Io Access

def issued (info : Info) (w : Volume) (e : Event) : List (Access Sector) :=
  match w.nodes[e.node]? with
  | none => []
  | some v => ((e.call.program info v e.acquired).exec w.disk e.fates).trace

/-- The vnode that a path leads to, name by name, with a device that works. -/
def resolve (info : Info) (d : Disk) : Vnode → List (List UInt8) → Except Int Vnode
  | v, [] => .ok v
  | v, name :: path =>
    match ((fat32Lookup info v name true true).exec d []).value with
    | .error code => .error code
    | .ok child => resolve info d child path

/-- What a call that was cut off may have made of the array: a write or an append has put some of its
bytes, and all behind the old end if the end has moved; a truncation has happened or not. -/
def Torn (xs : List UInt8) (call : Call) (ys : List UInt8) : Prop :=
  match call with
  | .write offset size (some bytes) => Rewritten bytes offset size xs ys
  | .append size (some bytes) => Rewritten bytes xs.length size xs ys
  | .truncate length => ys = xs ∨ length < xs.length ∧ ys = xs.take length
  | _ => ys = xs

theorem Rewritten.refl (bytes : Nat → UInt8) (offset size : Nat) (xs : List UInt8) :
    Rewritten bytes offset size xs xs := ⟨le_rfl,fun _ hp => .inl ⟨hp,rfl⟩⟩

theorem Torn.refl (xs : List UInt8) (call : Call) : Torn xs call xs := by
  cases call with
  | write offset size buffer =>
    cases buffer with
    | none => rfl
    | some bytes => exact Rewritten.refl _ _ _ _
  | append size buffer =>
    cases buffer with
    | none => rfl
    | some bytes => exact Rewritten.refl _ _ _ _
  | truncate length => exact .inl rfl
  | _ => rfl

/-- The terms of a crash: a command may be given only while the old size stands. -/
def crashTerms (info : Info) (cs : List Nat) (v : Vnode) (call : Call) (d : Disk) : Terms Sector where
  readFails := true
  writeFails := true
  mayRead _ := True
  mayWrite d₁ _ _ := eof d₁ v = eof d v
  safe d₁ := d₁ = d ∨ v.type = .regular ∧ Changed info cs v d d₁ ∧
    Torn (contents info cs d v) call (contents info cs d₁ v)

section Crash
variable {info : Info} {root : Vnode} {d₀ d : Disk} {v : Vnode} {cs : List Nat}

section
variable (hsep : Separate info root d₀) (hl : Layout info) (hroot : root.type = .directory)
  (hev : Evolved info root d₀ d) (hv : Named info root d₀ v cs)
include hsep hl hroot hev hv

theorem crash_guarded (ht : v.type = .regular) (call : Call) {bytes : Nat → UInt8} {offset size : Nat}
    (hoff : offset ≤ eof d v) (hroom : offset + size ≤ v.allocatedBytes) (h32 : offset + size < 2^32)
    (htorn : ∀ ys, Rewritten bytes offset size (contents info cs d v) ys → Torn (contents info cs d v) call ys)
    (n : Nat) :
    Guarded info cs { v with length := n } bytes offset size d (crashTerms info cs v call d) := by
  have heof : ∀ d₁, Wrote info cs bytes offset size d d₁ → eof d₁ v = eof d v := by
    intro d₁ hw
    unfold eof
    rw [hw.dirSector hsep hl hv ht (hv.dirSector hroot ht)]
  -- whatever the call has grown to, it is torn
  have hsafe : ∀ d', Grown info cs v bytes offset size d d' 0 →
      (crashTerms info cs v call d).safe d' := fun d' hg =>
    .inr ⟨ht,hg.changed hroom h32, htorn _ (hg.contents hsep hl hroot hv ht hev hoff hroom h32).1⟩
  constructor
  case between =>
    exact fun d₁ hw => hsafe d₁ ⟨d₁,0,hw,fun j hj => absurd hj (Nat.not_lt_zero j),Nat.zero_le _,
      le_rfl,.inl rfl,.inl ⟨rfl,hoff⟩⟩
  case sectors => exact fun d₁ hw _ _ _ => heof d₁ hw
  case directory => exact fun d₁ hw _ => heof d₁ hw
  case behind =>
    exact fun d₁ k hw hst hk hgrow _ => hsafe _ ⟨d₁,k,hw,hst,hk,Nat.zero_le _,.inr hoff, .inr ⟨hgrow,rfl⟩⟩

theorem crash_allowed (ht : v.type = .regular) (call : Call) (n : Nat) :
    Allowed info cs { v with length := n } d (crashTerms info cs v call d) call := by
  cases call with
  | write offset size buffer =>
    intro bytes hb hoff hlt h32
    subst hb
    have hlt : offset < v.allocatedBytes := hlt
    exact crash_guarded hsep hl hroot hev hv ht (.write offset size (some bytes)) hoff
      (by simp only; omega) (by simp only; omega)
      (fun ys hy => Rewritten.mono hy (Nat.min_le_left _ _)) n
  | append size buffer =>
    intro bytes hb
    subst hb
    refine crash_guarded hsep hl hroot hev hv ht _ (le_rfl) (append_fits hev hv ht size).1
      (append_fits hev hv ht size).2 (fun ys hy => ?_) n
    show Rewritten bytes (contents info cs d v).length size _ ys
    rw [length_contents]
    exact hy.mono (Nat.min_le_left _ _)
  | truncate length =>
    intro hlt
    have hlt : length < eof d v := hlt
    have h32 : eof d v < 2^32 := read32_lt _ _
    have hle := hev.sizes v cs hv ht
    refine ⟨.inr ⟨ht,⟨fun _ => 0,0,0,d,.refl,.inr ⟨length,by omega,by omega,rfl⟩⟩,.inr ⟨?_,?_⟩⟩,
      fun _ => rfl⟩
    · simpa using hlt
    · exact contents_truncated hsep hl hroot hv ht hev hlt
  | _ => trivial

/-- Cut off anywhere, a call leaves the disk unchanged or changed in its file alone, with the array torn
and the old end or the one that the whole call leaves. -/
theorem crash_cut (n : Nat) (e : Event) {trace : List (Access Sector)}
    (htrace : trace <+: ((e.call.program info { v with length := n } e.acquired).exec d e.fates).trace) :
    (replay d trace = d ∨ v.type = .regular ∧ Changed info cs v d (replay d trace) ∧
      Torn (contents info cs d v) e.call (contents info cs (replay d trace) v)) ∧
    (eof (replay d trace) v = eof d v ∨ eof (replay d trace) v =
      eof ((e.call.program info { v with length := n } e.acquired).exec d e.fates).disk v) := by
  have hc := hv.counted.congr hev.tables hl
  have hcn : Counted info d { v with length := n } cs := ⟨hc.chain,hc.length_le,hc.capacity⟩
  have hp : Permitted info { v with length := n } d (crashTerms info cs v e.call d) :=
    ⟨⟨fun _ _ => trivial,fun _ _ _ _ => trivial⟩,fun _ => trivial,.inl rfl⟩
  have hk := (program_meets hl hcn hv.nonempty hp e.acquired e.call
    fun ht => crash_allowed hsep hl hroot hev hv ht e.call n).exec e.fates
    (fun _ _ => ⟨nofun,nofun⟩)
  refine ⟨hk.cut trace htrace,?_⟩
  by_cases heof : eof (replay d trace) v = eof d v
  · exact .inl heof
  -- once the size is another one, nothing more is written
  refine .inr (congrArg (eof · v) (hk.closed (fun d₁ => eof d₁ v ≠ eof d v) ?_ htrace heof))
  exact fun d₁ _ _ hw hne => hne hw

end

end Crash

section Again
variable {info : Info} {root : Vnode} {d₀ d : Disk}

def working : Terms Sector := ⟨false,false,fun _ => True,fun _ _ _ => True,fun _ => True⟩

theorem lookup_value (hl : Layout info) {v : Vnode} {ds : List Nat} (hn : Counted info d v ds)
    (hne : v.type = .directory → ds ≠ []) (name : List UInt8) :
    ((fat32Lookup info v name true true).exec d []).value = lookupResult info d v ds name true true := by
  have hk := (fat32Lookup_meets (E := working) hl ⟨fun _ _ => trivial,fun _ _ _ _ => trivial⟩ trivial hn
    hne name true true).exec [] (expected_nil _ _)
  exact hk.ends.2.resolve_right fun h => by cases h.2

theorem mount_value {partition : Nat} (hp : partition < 2^32) :
    ((mount partition true true).exec d []).value = mountResult d partition true true := by
  have hk := (mount_meets (E := working) true true hp trivial trivial fun _ _ _ => trivial).exec (d := d) []
    (expected_nil _ _)
  exact hk.ends.2.resolve_right fun h => by cases h.2

theorem mountResult_congr {partition : Nat} {allocated acquired : Bool} (hp : partition < 2^32)
    (h : mountResult d₀ partition allocated acquired = some (info,root))
    (ht : SameTables info d₀ d) : mountResult d partition true true = some (info,root) := by
  obtain ⟨rfl,hgeo,_,_,rfl,rfl⟩ := mountResult_some hp h
  have hb : d partition = d₀ partition := by
    have h1 := hgeo.dataLba_eq
    have h2 := hgeo.reserved_pos
    have h3 : Bpb.metadata (d₀ partition) = Bpb.reserved (d₀ partition) +
      Bpb.fats (d₀ partition) * Bpb.sectorsPerFat (d₀ partition) := rfl
    exact ht partition (by omega)
  have hchain : ∀ c, chain? (Bpb.parsed (d₀ partition) partition) d c =
      chain? (Bpb.parsed (d₀ partition) partition) d₀ c := fun c => by
    simp only [chain?,ht.fatNext hgeo.toLayout]
  rw [← h]
  simp only [mountResult,hb,hchain]

section
variable {u : Vnode} {ds : List Nat}

theorem Evolved.lookup (h : Evolved info root d₀ d) (hl : Layout info) (hroot : root.type = .directory)
    (hu : Named info root d₀ u ds) (n : Nat) (name : List UInt8) :
    ((fat32Lookup info { u with length := n } name true true).exec d []).value =
      ((fat32Lookup info u name true true).exec d₀ []).value.map (relength d) := by
  have hc := hu.counted.congr h.tables hl
  have hcn : Counted info d { u with length := n } ds := ⟨hc.chain,hc.length_le,hc.capacity⟩
  rw [lookup_value hl hcn hu.nonempty,lookup_value hl hu.counted hu.nonempty]
  unfold lookupResult
  by_cases ht : u.type = .directory
  · simp only [ht,ne_eq,not_true_eq_false,if_false]
    cases shortName name with
    | error code => rfl
    | ok target => exact h.found hl hroot hu ht target true
  · simp only [ne_eq,ht,not_false_eq_true,if_true]
    rfl

theorem Named.lookup (hl : Layout info) {c : Vnode} (hu : Named info root d₀ u ds) {name : List UInt8}
    (h : ((fat32Lookup info u name true true).exec d₀ []).value = .ok c) :
    ∃ cs, Named info root d₀ c cs := by
  rw [lookup_value hl hu.counted hu.nonempty] at h
  unfold lookupResult at h
  split at h
  · cases h
  rename_i ht
  split at h
  · cases h
  rename_i target _
  obtain ⟨cs,hc⟩ := found_child h
  exact ⟨cs,.child hu (not_not.mp ht) h hc⟩

theorem Named.resolve (hl : Layout info) {f : Vnode} (hu : Named info root d₀ u ds)
    {path : List (List UInt8)} (hf : resolve info d₀ u path = .ok f) :
    ∃ cs, Named info root d₀ f cs := by
  induction path generalizing u ds with
  | nil =>
    obtain rfl := Except.ok.inj hf
    exact ⟨ds,hu⟩
  | cons name path ih =>
    rw [Fat32.resolve] at hf
    split at hf
    · cases hf
    rename_i c hc
    obtain ⟨cs,hcs⟩ := hu.lookup hl hc
    exact ih hcs hf

theorem Evolved.resolve (h : Evolved info root d₀ d) (hl : Layout info) (hroot : root.type = .directory)
    {f : Vnode} (hu : Named info root d₀ u ds) (n : Nat) {path : List (List UInt8)} (hpath : path ≠ [])
    (hf : resolve info d₀ u path = .ok f) :
    resolve info d { u with length := n } path = .ok (relength d f) := by
  induction path generalizing u ds n with
  | nil => exact absurd rfl hpath
  | cons name path ih =>
    rw [Fat32.resolve] at hf ⊢
    rw [h.lookup hl hroot hu n name]
    split at hf
    · cases hf
    rename_i c hc
    rw [hc]
    obtain ⟨cs,hcs⟩ := hu.lookup hl hc
    cases path with
    | nil =>
      obtain rfl := Except.ok.inj hf
      rfl
    | cons next path => exact ih hcs _ (by simp) hf

end

end Again

/-- What is found after a crash in the call `e`, made after those that led to `w`: the disk `d` mounts
again, and the path leads to the file `f` with the chain `cs`. -/
structure Survives (info : Info) (root : Vnode) (partition : Nat) (d₀ : Disk) (w : Volume) (e : Event)
    (path : List (List UInt8)) (f : Vnode) (cs : List Nat) (d : Disk) : Prop where
  mounted : ((mount partition true true).exec d []).value = some (info,root)
  found : resolve info d root path = .ok { f with length := eof d f }
  tables : ∀ lba < info.dataLba, d lba = w.disk lba
  /-- What the calls before did stands. -/
  earlier : History (cs.length * clusterBytes info) f (contents info cs d₀ f) w.log
    (contents info cs w.disk f)
  /-- The file of the call has the old end or the one the whole call gives it, and its array is torn. -/
  written : ∀ u, w.nodes[e.node]? = some u → SameEntry f u →
    (eof d f = eof w.disk f ∨ eof d f = eof (step info w e).disk f) ∧
    Torn (contents info cs w.disk f) e.call (contents info cs d f)
  others : (∀ u, w.nodes[e.node]? = some u → ¬SameEntry f u) → eof d f = eof w.disk f ∧
    ∀ q < cs.length * info.sectorsPerCluster, d (fileSector info cs q) = w.disk (fileSector info cs q)
  /-- Only sectors of the file of the call and the size in its entry differ. -/
  elsewhere : ∀ u us, w.nodes[e.node]? = some u → Counted info d₀ u us → ∀ lba i,
    (∀ q < us.length * info.sectorsPerCluster, fileSector info us q ≠ lba) →
    ¬(lba = u.directoryLba ∧ u.directoryOffset + 28 ≤ i ∧ i < u.directoryOffset + 32) →
    d lba i = w.disk lba i

/-- For every mounted volume with separate chains, after any calls, with any failures, and for every cut
of the commands of one more call: the volume mounts again and every file is found as said above. -/
theorem fat32_crash (partition : Nat) (hp : partition < 2^32) (d : Disk) (allocated acquired : Bool)
    (fates : List Fate) (info : Info) (root : Vnode)
    (hm : ((mount partition allocated acquired).exec d fates).value = some (info,root))
    (hsep : Separate info root d) (es : List Event) (e : Event) (trace : List (Access Sector))
    (htrace : trace <+: issued info ((machine info root d).run es) e) (path : List (List UInt8))
    (f : Vnode) (hf : resolve info d root path = .ok f) (ht : f.type = .regular) :
    ∃ cs, Counted info d f cs ∧ Survives info root partition d ((machine info root d).run es) e path f cs
      (replay ((machine info root d).run es).disk trace) := by
  have hmr := (mount_confined hp _ _ fates).2 _ hm
  obtain ⟨_,hgeo,hroot,⟨ds,hds,hne⟩,_⟩ := mountResult_some hp hmr
  have hl := hgeo.toLayout
  have hnroot : Named info root d root ds := .root hds hne
  obtain ⟨cs,hcs⟩ := hnroot.resolve hl hf
  obtain ⟨hlive,hhist⟩ := run_live hsep hl hroot hnroot hcs ht es
  generalize (machine info root d).run es = w at htrace hlive hhist ⊢
  refine ⟨cs,hcs.counted,?_⟩
  have hpath : path ≠ [] := by
    rintro rfl
    obtain rfl := Except.ok.inj hf
    rw [hroot] at ht
    cases ht
  -- the disk after the crash, if the call has a vnode
  have hcut : replay w.disk trace = w.disk ∨ ∃ v vs n, w.nodes[e.node]? = some { v with length := n } ∧
      Named info root d v vs ∧ v.type = .regular ∧ Changed info vs v w.disk (replay w.disk trace) ∧
      Torn (contents info vs w.disk v) e.call (contents info vs (replay w.disk trace) v) ∧
      (eof (replay w.disk trace) v = eof w.disk v ∨
        eof (replay w.disk trace) v = eof (step info w e).disk v) := by
    unfold issued at htrace
    cases hu : w.nodes[e.node]? with
    | none =>
      rw [hu] at htrace
      obtain rfl := List.prefix_nil.mp htrace
      exact .inl rfl
    | some u =>
      rw [hu] at htrace
      obtain ⟨v,vs,n,hv,rfl⟩ := hlive.nodes u (List.mem_of_getElem? hu)
      obtain ⟨hd | ⟨htv,hc,htorn⟩,heof⟩ := crash_cut hsep hl hroot hlive.evolved hv n e htrace
      · exact .inl hd
      refine .inr ⟨v,vs,n,rfl,hv,htv,hc,htorn,?_⟩
      simp only [step,hu]
      exact heof
  generalize replay w.disk trace = dc at hcut ⊢
  have hev : Evolved info root d dc := by
    rcases hcut with rfl | ⟨v,vs,n,_,hv,htv,hc,_⟩
    · exact hlive.evolved
    · exact hc.evolved hlive.evolved hsep hl hroot hv htv
  constructor
  case mounted => rw [mount_value hp]; exact mountResult_congr hp hmr hev.tables
  case found => exact hev.resolve hl hroot hnroot root.length hpath hf
  case tables => exact fun lba hlba => (hev.tables lba hlba).trans (hlive.evolved.tables lba hlba).symm
  case earlier => exact hhist
  case written =>
    intro u hu hsame
    rcases hcut with rfl | ⟨v,vs,n,hv',hv,htv,hc,htorn,heof⟩
    · exact ⟨.inl rfl,Torn.refl _ _⟩
    obtain rfl := Option.some.inj (hu.symm.trans hv')
    obtain ⟨rfl,rfl⟩ := hv.unique hcs hroot htv ht hsame.2.1 hsame.2.2
    exact ⟨heof,htorn⟩
  case others =>
    intro hother
    rcases hcut with rfl | ⟨v,vs,n,hv',hv,htv,hc,_⟩
    · exact ⟨rfl,fun _ _ => rfl⟩
    have hne' : (v.directoryLba,v.directoryOffset) ≠ (f.directoryLba,f.directoryOffset) := by
      intro he
      simp only [Prod.mk.injEq] at he
      exact hother _ hv' ⟨htv,he.1,he.2⟩
    refine ⟨hc.other_eof hsep hl hroot hv htv hcs ht hne',fun q hq => ?_⟩
    funext i
    refine hc.elsewhere hsep hl hroot hv htv _ i
      (fun q' hq' => hsep.fileSectors_ne hl hv htv hcs ht hne' hq' hq) fun h => ?_
    exact hsep.fileSector_ne hl hcs ht (hv.dirSector hroot htv) hq h.1
  case elsewhere =>
    intro u us hu hus lba i hdata hsize
    rcases hcut with rfl | ⟨v,vs,n,hv',hv,htv,hc,_⟩
    · rfl
    obtain rfl := Option.some.inj (hu.symm.trans hv')
    obtain rfl : us = vs := hus.chain.unique hv.counted.chain
    exact hc.elsewhere hsep hl hroot hv htv lba i hdata hsize

/-- The file of the small volume is looked up, and an append to it is cut off after three commands. -/
theorem fat32_crash_append : resolve smallInfo smallVolume smallRoot [[65]] = .ok smallFile ∧
    ∃ cs, Counted smallInfo smallVolume smallFile cs ∧ Survives smallInfo smallRoot 0 smallVolume
        ((machine smallInfo smallRoot smallVolume).run [⟨0,.lookup [65] true,true,[]⟩])
        ⟨1,.append 3 (some fun _ => 7),true,[]⟩ [[65]] smallFile cs
        (replay ((machine smallInfo smallRoot smallVolume).run
            [⟨0,.lookup [65] true,true,[]⟩]).disk
          ((issued smallInfo ((machine smallInfo smallRoot smallVolume).run
            [⟨0,.lookup [65] true,true,[]⟩]) ⟨1,.append 3 (some fun _ => 7),true,[]⟩).take 3)) := by
  have hf : resolve smallInfo smallVolume smallRoot [[65]] = .ok smallFile := by decide +kernel
  exact ⟨hf,fat32_crash 0 (by decide) smallVolume true true [] smallInfo smallRoot (by decide +kernel)
    separate_small _ _ _ (List.take_prefix _ _) [[65]] smallFile hf rfl⟩

end Rucux.Vfs.Fat32
