import Rucux.Lib.EndAroundCarry
import Mathlib.Data.BitVec

/-! Bytes, byte order and the Internet checksum. -/

namespace Rucux.Net
open Lib List

def byteAt (bytes : List UInt8) (i : Nat) : BitVec 8 := (bytes.getD i 0).toBitVec

def load16 (bytes : List UInt8) (i : Nat) : BitVec 16 := byteAt bytes (i+1) ++ byteAt bytes i

def load32 (bytes : List UInt8) (i : Nat) : BitVec 32 :=
  byteAt bytes (i+3) ++ byteAt bytes (i+2) ++ byteAt bytes (i+1) ++ byteAt bytes i

def store16 (x : BitVec 16) : List UInt8 :=
  [⟨x.extractLsb' 0 8⟩,⟨x.extractLsb' 8 8⟩]

def store32 (x : BitVec 32) : List UInt8 :=
  [⟨x.extractLsb' 0 8⟩,⟨x.extractLsb' 8 8⟩,⟨x.extractLsb' 16 8⟩,⟨x.extractLsb' 24 8⟩]

def htons (x : BitVec 16) : BitVec 16 := x.extractLsb' 0 8 ++ x.extractLsb' 8 8

def htonl (x : BitVec 32) : BitVec 32 :=
  x.extractLsb' 0 8 ++ x.extractLsb' 8 8 ++ x.extractLsb' 16 8 ++ x.extractLsb' 24 8

def ntohs (x : BitVec 16) : BitVec 16 := htons x

def ntohl (x : BitVec 32) : BitVec 32 := htonl x

theorem extract_low {n : Nat} (a : BitVec n) (b : BitVec 8) : (a ++ b).extractLsb' 0 8 = b := by
  rw [BitVec.extractLsb'_append_eq_of_add_le (by omega)]
  simp

theorem extract_high {n : Nat} (a : BitVec n) (b : BitVec 8) (k : Nat) :
    (a ++ b).extractLsb' (k+8) 8 = a.extractLsb' k 8 := by
  rw [BitVec.extractLsb'_append_eq_of_le (by omega)]
  simp

theorem join16 (x : BitVec 16) : x.extractLsb' 8 8 ++ x.extractLsb' 0 8 = x := by
  rw [BitVec.extractLsb'_append_extractLsb'_eq_extractLsb' (by rfl)]
  simp

theorem join32 (x : BitVec 32) :
    x.extractLsb' 24 8 ++ x.extractLsb' 16 8 ++ x.extractLsb' 8 8 ++ x.extractLsb' 0 8 = x := by
  rw [BitVec.extractLsb'_append_extractLsb'_eq_extractLsb' (by rfl),
    BitVec.extractLsb'_append_extractLsb'_eq_extractLsb' (by rfl),
    BitVec.extractLsb'_append_extractLsb'_eq_extractLsb' (by rfl)]
  simp

@[simp] theorem ntohs_htons (x : BitVec 16) : ntohs (htons x) = x := by
  have h := extract_high (x.extractLsb' 0 8) (x.extractLsb' 8 8) 0
  unfold ntohs htons
  rw [extract_low,h,BitVec.extractLsb'_eq_self]
  exact join16 x

@[simp] theorem ntohl_htonl (x : BitVec 32) : ntohl (htonl x) = x := by
  unfold ntohl htonl
  generalize ha : x.extractLsb' 0 8 = a
  generalize hb : x.extractLsb' 8 8 = b
  generalize hc : x.extractLsb' 16 8 = c
  generalize hd : x.extractLsb' 24 8 = d
  have h₁ := (extract_high (a ++ b ++ c) d 0).trans (extract_low _ _)
  have h₂ := ((extract_high (a ++ b ++ c) d 8).trans (extract_high (a ++ b) c 0)).trans (extract_low _ _)
  have h₃ := ((extract_high (a ++ b ++ c) d 16).trans (extract_high (a ++ b) c 8)).trans
    ((extract_high a b 0).trans BitVec.extractLsb'_eq_self)
  rw [extract_low,h₁,h₂,h₃,← ha,← hb,← hc,← hd]
  exact join32 x

theorem load16_append (front : List UInt8) (x : BitVec 16) (rest : List UInt8) :
    load16 (front ++ (store16 x ++ rest)) front.length = x := by
  simp [load16,byteAt,store16,join16]

/-- The word loop of `checksum` and `checksum_pseudo`: pairs of bytes, low byte
first, then an odd last byte, added up in 32 bits. -/
def sumWords : List UInt8 → Nat → Nat
  | [], sum => sum
  | [a], sum => (sum+a.toNat) % 2^32
  | a :: b :: rest, sum => sumWords rest ((sum+(a.toNat+256*b.toNat)) % 2^32)

/-- `while (sum >> 16)` folds the carries; 32 rounds are never used up. -/
def foldSum (sum : Nat) : BitVec 16 := ~~~(BitVec.ofNat 16 (foldCarry 65536 32 sum))

def checksum (data : List UInt8) : BitVec 16 := foldSum (sumWords data 0)

def pseudoSum (src dst : BitVec 32) (proto : BitVec 8) (length : Nat) : Nat :=
  src.toNat % 65536+src.toNat / 65536+dst.toNat % 65536+dst.toNat / 65536 +
    (htons (proto.setWidth 16)).toNat+(htons (BitVec.ofNat 16 length)).toNat

def checksumPseudo (src dst : BitVec 32) (proto : BitVec 8) (data : List UInt8) : BitVec 16 :=
  foldSum (sumWords data (pseudoSum src dst proto data.length))

def wordSum : List UInt8 → Nat
  | [] => 0
  | [a] => a.toNat
  | a :: b :: rest => a.toNat+256*b.toNat+wordSum rest

theorem sumWords_eq {data : List UInt8} {sum : Nat} (h : sum+wordSum data < 2^32) :
    sumWords data sum = sum+wordSum data := by
  induction data, sum using sumWords.induct with
  | case1 sum => simp [sumWords,wordSum]
  | case2 a sum =>
    rw [wordSum] at h ⊢
    exact Nat.mod_eq_of_lt h
  | case3 a b rest sum ih =>
    rw [wordSum] at h
    rw [Nat.mod_eq_of_lt (by omega)] at ih
    rw [sumWords,wordSum,Nat.mod_eq_of_lt (by omega),ih (by omega)]
    omega

theorem wordSum_le (data : List UInt8) : 2*wordSum data ≤ 65535*(data.length+1) := by
  induction data using wordSum.induct with
  | case1 => simp [wordSum]
  | case2 a =>
    have := a.toNat_lt
    simp only [wordSum,length_singleton]
    omega
  | case3 a b rest ih =>
    have ha := a.toNat_lt
    have hb := b.toNat_lt
    simp only [wordSum,length_cons]
    omega

theorem wordSum_append {front : List UInt8} (he : front.length % 2 = 0) (back : List UInt8) :
    wordSum (front ++ back) = wordSum front+wordSum back := by
  induction front using wordSum.induct with
  | case1 => simp [wordSum]
  | case2 a => simp at he
  | case3 a b rest ih =>
    have he : rest.length % 2 = 0 := by simp only [length_cons] at he; omega
    simp only [cons_append,wordSum,ih he]
    omega

theorem wordSum_store16 (x : BitVec 16) : wordSum (store16 x) = x.toNat := by
  have hx := x.isLt
  simp only [store16,wordSum,UInt8.toNat,BitVec.extractLsb'_toNat]
  simp only [Nat.shiftRight_eq_div_pow]
  omega

theorem foldSum_verifies {sum : Nat} (h : sum+65535 < 2^32) : foldSum (sum+(foldSum sum).toNat) = 0 := by
  have hlt : foldCarry 65536 32 sum < 65536 := foldCarry_lt (by decide) (by decide) (by omega)
  have hval : (foldSum sum).toNat = 65536-1-foldCarry 65536 32 sum := by
    rw [foldSum,BitVec.toNat_not,BitVec.toNat_ofNat,Nat.mod_eq_of_lt hlt]
  rw [hval,foldSum,foldCarry_complement (by decide) (by decide) (by decide) (by omega) (by omega)]
  decide

section
variable {front back : List UInt8} (he : front.length % 2 = 0) (hl : (front ++ back).length ≤ 65535)
include he hl

theorem sumWords_field {sum : Nat} (hs : sum ≤ 2^20) (x : BitVec 16) :
    sumWords (front ++ store16 x ++ back) sum = sumWords (front ++ store16 0 ++ back) sum+x.toNat ∧
      sumWords (front ++ store16 0 ++ back) sum+65535 < 2^32 := by
  have hsum : ∀ y, wordSum (front ++ store16 y ++ back) = wordSum front+y.toNat+wordSum back := by
    intro y
    have hy : (front ++ store16 y).length % 2 = 0 := by simp [store16]; omega
    rw [wordSum_append hy,wordSum_append he,wordSum_store16]
  have hf := wordSum_le front
  have hb := wordSum_le back
  have hx := x.isLt
  rw [length_append] at hl
  have h0 : sumWords (front ++ store16 0 ++ back) sum = sum+(wordSum front+wordSum back) := by
    rw [sumWords_eq (by rw [hsum]; simp; omega),hsum]
    simp
  have hx' : sumWords (front ++ store16 x ++ back) sum = sum+(wordSum front+x.toNat+wordSum back) := by
    rw [sumWords_eq (by rw [hsum]; omega),hsum]
  omega

theorem checksum_verifies :
    checksum (front ++ store16 (checksum (front ++ store16 0 ++ back)) ++ back) = 0 := by
  obtain ⟨hsum,hlt⟩ := sumWords_field he hl (Nat.zero_le (2^20)) (checksum (front ++ store16 0 ++ back))
  rw [checksum,hsum]
  exact foldSum_verifies hlt

end

theorem checksumPseudo_verifies (src dst : BitVec 32) (proto : BitVec 8) {front back : List UInt8}
    (he : front.length % 2 = 0) (hl : (front ++ back).length ≤ 65535) :
    checksumPseudo src dst proto (front ++
      store16 (checksumPseudo src dst proto (front ++ store16 0 ++ back)) ++ back) = 0 := by
  have hlen : ∀ x, (front ++ store16 x ++ back).length = front.length+2+back.length := by
    intro x
    simp only [length_append,store16,length_cons,length_nil]
  have hp : pseudoSum src dst proto (front.length+2+back.length) ≤ 2^20 := by
    have h₁ := src.isLt
    have h₂ := dst.isLt
    have h₃ := (htons (proto.setWidth 16)).isLt
    have h₄ := (htons (BitVec.ofNat 16 (front.length+2+back.length))).isLt
    unfold pseudoSum
    omega
  obtain ⟨hsum,hlt⟩ := sumWords_field he hl hp (checksumPseudo src dst proto (front ++ store16 0 ++ back))
  rw [checksumPseudo,hlen,hsum,checksumPseudo,hlen]
  exact foldSum_verifies hlt

/-!
Network buffers: one block with the packet in the middle, room for headers in front
of it and room for data behind it.
-/

def ipprotoTcp : BitVec 8 := 6
def ipprotoUdp : BitVec 8 := 17

/-- The bytes from `data_` on, and how much of the block lies before and behind them. -/
structure Netbuf where
  headroom : Nat
  data : List UInt8
  tailroom : Nat
  srcIp : BitVec 32
  dstIp : BitVec 32

namespace Netbuf

def alloc : Netbuf := ⟨128,[],2048-128,0,0⟩

def len (b : Netbuf) : Nat := b.data.length

def push (b : Netbuf) (header : List UInt8) : Option Netbuf :=
  if header.length > b.headroom then none
  else some { b with headroom := b.headroom-header.length, data := header ++ b.data }

def put (b : Netbuf) (bytes : List UInt8) : Option Netbuf :=
  if bytes.length > b.tailroom then none
  else some { b with data := b.data ++ bytes, tailroom := b.tailroom-bytes.length }

def pull (b : Netbuf) (size : Nat) : Option Netbuf :=
  if size > b.len then none
  else some { b with headroom := b.headroom+size, data := b.data.drop size }

/-- `set_len` where it shortens the packet, which is how the protocols use it. -/
def setLen (b : Netbuf) (size : Nat) : Netbuf :=
  { b with data := b.data.take size, tailroom := b.tailroom+(b.len-size) }

theorem push_some (b : Netbuf) {header : List UInt8} (h : header.length ≤ b.headroom) :
    ∃ c, b.push header = some c ∧ c.data = header ++ b.data ∧ c.headroom = b.headroom-header.length := by
  rw [push,if_neg (by omega)]
  exact ⟨_,rfl,rfl,rfl⟩

end Netbuf

def writeAt (i : Nat) (bytes field : List UInt8) : List UInt8 :=
  bytes.take i ++ field ++ bytes.drop (i+field.length)

end Rucux.Net
