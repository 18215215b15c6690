import Rucux.Lib.Machine

/-! The credentials of a thread: what `clone` and `spawn` hand on, and what the calls that set user and group
change. -/

namespace Rucux.Process
open Lib Function

/-- `rucux_credentials` -/
structure Credentials where
  ruid : BitVec 32
  euid : BitVec 32
  suid : BitVec 32
  rgid : BitVec 32
  egid : BitVec 32
  sgid : BitVec 32
  sid : BitVec 32
  pgid : BitVec 32
  capabilities : BitVec 32
  deriving DecidableEq

/-- `ROOT_CAPABILITIES`: all but `RUCUX_CAP_RAW_IO`, which is bit 5 -/
def rootCapabilities : BitVec 32 := 0x1f#32

def capRawIo : Nat := 5

namespace Credentials

def root (sid pgid : BitVec 32) : Credentials := ⟨0,0,0,0,0,0,sid,pgid,rootCapabilities⟩

def isPrivileged (c : Credentials) : Bool := c.euid = 0

def holds (c : Credentials) (cap : Nat) : Bool := c.capabilities.getLsbD cap

def sysSetuid (c : Credentials) (uid : BitVec 32) : Int × Credentials :=
  if c.isPrivileged then
    let c := { c with ruid := uid, euid := uid, suid := uid }
    (0,if uid ≠ 0 then { c with capabilities := 0 } else c)
  else if uid = c.ruid ∨ uid = c.suid then (0,{ c with euid := uid })
  else (-1,c)

def sysSeteuid (c : Credentials) (uid : BitVec 32) : Int × Credentials :=
  if c.isPrivileged ∨ uid = c.ruid ∨ uid = c.suid then
    let c := { c with euid := uid }
    (0,if uid ≠ 0 then { c with capabilities := 0 } else c)
  else (-1,c)

def sysSetgid (c : Credentials) (gid : BitVec 32) : Int × Credentials :=
  if c.isPrivileged then (0,{ c with rgid := gid, egid := gid, sgid := gid })
  else if gid = c.rgid ∨ gid = c.sgid then (0,{ c with egid := gid })
  else (-1,c)

def sysSetegid (c : Credentials) (gid : BitVec 32) : Int × Credentials :=
  if c.isPrivileged ∨ gid = c.rgid ∨ gid = c.sgid then (0,{ c with egid := gid }) else (-1,c)

def spawnUser (c : Credentials) (tid : BitVec 32) : Credentials :=
  { c with sid := if c.sid = 0 then tid else c.sid, pgid := if c.pgid = 0 then tid else c.pgid }

def grantsRawIo (path : String) : Bool := path = "/bin/console" ∨ path = "/bin/kbd"

def spawnPath (c : Credentials) (tid : BitVec 32) (path : String) : Credentials :=
  let c := c.spawnUser tid
  let kept := c.capabilities &&& ~~~(1#32 <<< capRawIo)
  { c with capabilities := if grantsRawIo path then kept ||| (1#32 <<< capRawIo) else kept }

end Credentials

/-- Where a thread comes from, with its creator's credentials at that time. -/
inductive Origin where
  | boot
  | clone (creator : Credentials)
  | spawn (creator : Credentials) (path : String)

/-- `dropped`: with effective uid 0 it has called `sys_setuid` for another one, or it was created by a
thread of which that was true. -/
structure Account where
  creds : Credentials
  origin : Origin
  dropped : Bool

/-- A clone or a spawn that ends well makes the thread `child`. -/
inductive AccountEvent where
  | clone (thread child : Nat)
  | spawn (thread child : Nat) (path : String)
  | setuid (thread : Nat) (uid : BitVec 32)
  | seteuid (thread : Nat) (uid : BitVec 32)
  | setgid (thread : Nat) (gid : BitVec 32)
  | setegid (thread : Nat) (gid : BitVec 32)

abbrev Accounts := Nat → Option Account

namespace Account

def setuid (a : Account) (uid : BitVec 32) : Account :=
  { a with creds := (a.creds.sysSetuid uid).2, dropped := a.dropped || (a.creds.isPrivileged && uid ≠ 0) }

def clone (a : Account) : Account := { a with origin := .clone a.creds }

def spawn (a : Account) (child : Nat) (path : String) : Account :=
  { a with creds := a.creds.spawnPath (BitVec.ofNat 32 child) path, origin := .spawn a.creds path }

end Account

namespace Accounts

def create (s : Accounts) (thread child : Nat) (make : Account → Account) : Accounts :=
  if s child = none then update s child ((s thread).map make) else s

def change (s : Accounts) (thread : Nat) (call : Account → Account) : Accounts :=
  update s thread ((s thread).map call)

def step (s : Accounts) : AccountEvent → Accounts
  | .clone thread child => s.create thread child .clone
  | .spawn thread child path => s.create thread child (·.spawn child path)
  | .setuid thread uid => s.change thread (·.setuid uid)
  | .seteuid thread uid => s.change thread fun a => { a with creds := (a.creds.sysSeteuid uid).2 }
  | .setgid thread gid => s.change thread fun a => { a with creds := (a.creds.sysSetgid gid).2 }
  | .setegid thread gid => s.change thread fun a => { a with creds := (a.creds.sysSetegid gid).2 }

def machine : Machine Accounts AccountEvent where
  initial := fun i => if i = 0 then some ⟨.root 0 0,.boot,false⟩ else none
  step := step

end Accounts

namespace Credentials
variable {c c' : Credentials} {tid uid gid : BitVec 32} {path : String} {cap : Nat}

def Unprivileged (c : Credentials) : Prop := c.ruid ≠ 0 ∧ c.euid ≠ 0 ∧ c.suid ≠ 0

/-- What the calls that set user and group can do: an effective uid is 0 only if one of the three was,
and capabilities are either all kept or all lost. -/
structure Weakens (c c' : Credentials) : Prop where
  unprivileged : c.Unprivileged → c'.Unprivileged
  capabilities : c'.capabilities = c.capabilities ∨ c'.capabilities = 0
  lost : c.euid = 0 → c'.euid ≠ 0 → c'.capabilities = 0

theorem Weakens.holds (h : Weakens c c') (hc : c'.holds cap = true) : c.holds cap = true := by
  rcases h.capabilities with hs | hs
  · rwa [Credentials.holds,hs] at hc
  rw [Credentials.holds,hs] at hc
  simp at hc

theorem weakens_refl : Weakens c c := ⟨id,.inl rfl,fun h0 h => absurd h0 h⟩

theorem weakens_clear (c' : Credentials) (h : c.Unprivileged → c'.Unprivileged)
    (hc : c'.capabilities = c.capabilities) :
    Weakens c (if c'.euid ≠ 0 then { c' with capabilities := 0 } else c') := by
  by_cases hu : c'.euid = 0
  · rw [if_neg (not_not.mpr hu)]
    exact ⟨h,.inl hc,fun _ hne => absurd hu hne⟩
  · rw [if_pos hu]
    exact ⟨h,.inr rfl,fun _ _ => rfl⟩

theorem sysSetuid_weakens : Weakens c (c.sysSetuid uid).2 := by
  rw [sysSetuid]
  by_cases hp : c.isPrivileged = true
  · rw [if_pos hp]
    exact weakens_clear { c with ruid := uid, euid := uid, suid := uid }
      (fun hc => absurd (by simpa [isPrivileged] using hp) hc.2.1) rfl
  rw [if_neg hp]
  split
  · rename_i hu
    refine ⟨fun hc => ⟨hc.1,?_,hc.2.2⟩,.inl rfl,fun h0 _ => absurd (by simpa [isPrivileged] using h0) hp⟩
    rcases hu with rfl | rfl
    · exact hc.1
    · exact hc.2.2
  · exact weakens_refl

theorem sysSeteuid_weakens : Weakens c (c.sysSeteuid uid).2 := by
  rw [sysSeteuid]
  split
  · rename_i hu
    refine weakens_clear { c with euid := uid } (fun hc => ⟨hc.1,?_,hc.2.2⟩) rfl
    rcases hu with hp | rfl | rfl
    · exact absurd (by simpa [isPrivileged] using hp) hc.2.1
    · exact hc.1
    · exact hc.2.2
  · exact weakens_refl

theorem sysSetgid_weakens : Weakens c (c.sysSetgid gid).2 := by
  rw [sysSetgid]
  split
  · exact ⟨id,.inl rfl,fun h0 h => absurd h0 h⟩
  · split <;> exact ⟨id,.inl rfl,fun h0 h => absurd h0 h⟩

theorem sysSetegid_weakens : Weakens c (c.sysSetegid gid).2 := by
  rw [sysSetegid]
  split <;> exact ⟨id,.inl rfl,fun h0 h => absurd h0 h⟩

theorem sysSetuid_unprivileged (h : c.isPrivileged = true) (hu : uid ≠ 0) : (c.sysSetuid uid).2.Unprivileged := by
  rw [sysSetuid,if_pos h]
  simp only [if_pos hu]
  exact ⟨hu,hu,hu⟩

theorem holds_spawnPath : (c.spawnPath tid path).holds cap =
    if cap = capRawIo then grantsRawIo path else c.holds cap := by
  by_cases hcap : cap = capRawIo
  · subst hcap
    cases hg : grantsRawIo path <;> simp [holds,spawnPath,spawnUser,hg,capRawIo]
  have hbit : (1#32 <<< capRawIo).getLsbD cap = false := by
    rw [BitVec.getLsbD_shiftLeft,BitVec.getLsbD_one]
    simp only [capRawIo] at hcap ⊢
    by_cases hlt : cap < 5
    · simp [hlt]
    · simp [show cap - 5 ≠ 0 by omega]
  have hsmall : c.capabilities.getLsbD cap = true → cap < 32 := BitVec.lt_of_getLsbD
  rw [if_neg hcap]
  cases hg : grantsRawIo path <;> simp [holds,spawnPath,spawnUser,hg,hbit] <;> exact hsmall

end Credentials

namespace Account
open Credentials
variable {a : Account} {c : Credentials}

/-- What a thread may hold, by what its creator held when creating it. -/
def allowed (a : Account) (cap : Nat) : Prop :=
  match a.origin with
  | .boot => True
  | .clone creator => creator.holds cap = true
  | .spawn creator path => if cap = capRawIo then grantsRawIo path = true else creator.holds cap = true

structure Confined (a : Account) : Prop where
  allowed : ∀ cap, a.creds.holds cap = true → a.allowed cap
  unprivileged : a.dropped = true → a.creds.Unprivileged

section
variable (h : a.Confined)
include h

theorem Confined.weakens (hc : Weakens a.creds c) : ({ a with creds := c } : Account).Confined :=
  ⟨fun cap hcap => h.allowed cap (hc.holds hcap),fun hd => hc.unprivileged (h.unprivileged hd)⟩

theorem Confined.setuid {uid : BitVec 32} : (a.setuid uid).Confined := by
  have hw : ({ a with creds := (a.creds.sysSetuid uid).2 } : Account).Confined := h.weakens sysSetuid_weakens
  refine ⟨hw.allowed,fun hd => ?_⟩
  by_cases ha : a.dropped = true
  · exact hw.unprivileged ha
  simp only [Account.setuid,Bool.or_eq_true,Bool.and_eq_true,decide_eq_true_eq] at hd
  obtain ⟨hp,hu⟩ := hd.resolve_left ha
  exact sysSetuid_unprivileged hp hu

theorem Confined.clone : a.clone.Confined := ⟨fun _ hcap => hcap,h.unprivileged⟩

theorem Confined.spawn {child : Nat} {path : String} : (a.spawn child path).Confined := by
  refine ⟨fun cap hcap => ?_,h.unprivileged⟩
  rw [Account.spawn,holds_spawnPath] at hcap
  show if cap = capRawIo then grantsRawIo path = true else a.creds.holds cap = true
  split at hcap
  · rwa [if_pos (by assumption)]
  · rwa [if_neg (by assumption)]

end

end Account

namespace Accounts
open Credentials
variable {s : Accounts} {thread child : Nat} {f : Account → Account}

def Sound (s : Accounts) : Prop := ∀ i a, s i = some a → a.Confined

theorem Sound.update (h : s.Sound) (i : Nat) (hf : ∀ a, a.Confined → (f a).Confined) :
    Sound (update s i ((s thread).map f)) := by
  intro j a ha
  by_cases hj : j = i
  · rw [hj,update_self,Option.map_eq_some_iff] at ha
    obtain ⟨b,hb,rfl⟩ := ha
    exact hf b (h thread b hb)
  · rw [update_of_ne hj] at ha
    exact h j a ha

theorem Sound.create (h : s.Sound) (hf : ∀ a, a.Confined → (f a).Confined) : (s.create thread child f).Sound := by
  rw [Accounts.create]
  split
  · exact h.update child hf
  · exact h

theorem Sound.step (h : s.Sound) (e : AccountEvent) : (s.step e).Sound := by
  cases e with
  | clone => exact h.create fun _ ha => ha.clone
  | spawn => exact h.create fun _ ha => ha.spawn
  | setuid => exact h.update _ fun _ ha => ha.setuid
  | seteuid => exact h.update _ fun _ ha => ha.weakens sysSeteuid_weakens
  | setgid => exact h.update _ fun _ ha => ha.weakens sysSetgid_weakens
  | setegid => exact h.update _ fun _ ha => ha.weakens sysSetegid_weakens

theorem sound_run (es : List AccountEvent) : Sound (machine.run es) := by
  refine machine.run_invariant (I := Sound) ?_ (fun s e h => h.step e) es
  intro i a ha
  simp only [machine] at ha
  split at ha
  · cases ha
    exact ⟨fun _ _ => trivial,fun hd => absurd hd Bool.false_ne_true⟩
  · cases ha

section
variable {i : Nat} {a : Account} (ha : s i = some a)
include ha

theorem create_of_some : s.create thread child f i = some a := by
  rw [create]
  split
  · rename_i hnone
    rw [update_of_ne (fun h => by rw [h,hnone] at ha; cases ha),ha]
  · exact ha

theorem change_weakens {a' : Account} (hf : ∀ b : Account, Weakens b.creds (f b).creds)
    (ha' : s.change thread f i = some a') : Weakens a.creds a'.creds := by
  by_cases hi : i = thread
  · subst hi
    rw [change,update_self,ha] at ha'
    cases ha'
    exact hf a
  rw [change,update_of_ne hi,ha] at ha'
  cases ha'
  exact weakens_refl

theorem step_weakens {a' : Account} (e : AccountEvent) (ha' : s.step e i = some a') :
    Weakens a.creds a'.creds := by
  have hsame : some a = some a' → Weakens a.creds a'.creds := fun h => by
    cases h
    exact weakens_refl
  cases e with
  | clone => exact hsame ((create_of_some ha).symm.trans ha')
  | spawn => exact hsame ((create_of_some ha).symm.trans ha')
  | setuid => exact change_weakens ha (fun _ => sysSetuid_weakens) ha'
  | seteuid => exact change_weakens ha (fun _ => sysSeteuid_weakens) ha'
  | setgid => exact change_weakens ha (fun _ => sysSetgid_weakens) ha'
  | setegid => exact change_weakens ha (fun _ => sysSetegid_weakens) ha'

end

theorem holds_created {a : Account} {path : String} (ha : s thread = some a) (hnew : s child = none) :
    ∃ b, s.step (.spawn thread child path) child = some b ∧ b.creds.holds capRawIo = grantsRawIo path := by
  refine ⟨a.spawn child path,?_,?_⟩
  · show s.create thread child _ child = _
    rw [create,if_pos hnew,update_self,ha]
    rfl
  · rw [Account.spawn,holds_spawnPath,if_pos rfl]

/-- In every tree of threads each holds only what its creator held, apart from the raw I/O that a spawn gives to the
two drivers; who leaves the effective uid 0 loses every capability, and who gives up root does not get it back. -/
theorem credential_confinement (es : List AccountEvent) : (∀ i a, machine.run es i = some a →
      (∀ cap, a.creds.holds cap = true → a.allowed cap) ∧ (a.dropped = true → a.creds.Unprivileged)) ∧
    (∀ thread child path a, machine.run es thread = some a → machine.run es child = none →
      ∃ b, (machine.run es).step (.spawn thread child path) child = some b ∧
        b.creds.holds capRawIo = grantsRawIo path) ∧
    ∀ i a e a', machine.run es i = some a → (machine.run es).step e i = some a' →
      a.creds.euid = 0 → a'.creds.euid ≠ 0 → a'.creds.capabilities = 0 := by
  refine ⟨fun i a ha => ?_,fun thread child path a ha hnew => holds_created ha hnew,fun i a e a' ha ha' => ?_⟩
  · have h := sound_run es i a ha
    exact ⟨h.allowed,h.unprivileged⟩
  · exact (step_weakens ha e ha').lost

end Accounts
end Rucux.Process
