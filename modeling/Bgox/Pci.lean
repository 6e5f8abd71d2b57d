import Mathlib.Data.Int.Notation
import Bgox.Lib.Loop

/-!
# The disk driver

`sys/pci.c`.  What the machine answers is open: the words of the configuration space, the memory of
the controllers, and for a register of a port that the driver waits for its value at each of the
times it is read.  The loops that wait, and the loop over the buses, may not end: they are given a
number of turns each, and the result is `none` if one of them does not end within it.
-/

namespace Bgox.Pci

/-! ## Registers -/

def HBA_PxCMD_FR : UInt32 := (1 : UInt32) <<< 14
def HBA_PxCMD_CR : UInt32 := (1 : UInt32) <<< 15
def HBA_PxIS_TFES : UInt32 := (1 : UInt32) <<< 30
def HBA_PxTDF_BSY : UInt32 := (1 : UInt32) <<< 7
def HBA_PxTDF_DRQ : UInt32 := (1 : UInt32) <<< 3
def HBA_PxTDF_ERR : UInt32 := 1
def ATA_DEV_BUSY : UInt32 := 0x80
def ATA_DEV_DRQ : UInt32 := 0x08

/-- The registers of a port.  The signature is that of the disk, the others change. -/
structure HbaPort where
  sig : UInt32
  isRwc : ℕ → UInt32
  cmd : ℕ → UInt32
  tfd : ℕ → UInt32
  ssts : ℕ → UInt32
  sact : ℕ → UInt32
  ci : ℕ → UInt32

structure HbaMem where
  cap : UInt32
  pi : UInt32
  ports : ℕ → HbaPort

/-! ## Waiting

The functions are passed the time, and return the time they end at. -/

/-- `while (reg & mask);` -/
def waitClear (reg : ℕ → UInt32) (mask : UInt32) : ℕ → ℕ → Option ℕ :=
  Loop.run fun now => some (if reg now &&& mask ≠ 0 then .inl (now + 1) else .inr (now + 1))

def stopCmd (port : HbaPort) : ℕ → ℕ → Option ℕ :=
  Loop.run fun now => some (
    if port.cmd now &&& HBA_PxCMD_FR ≠ 0 then .inl (now + 1)
    else if port.cmd (now + 1) &&& HBA_PxCMD_CR ≠ 0 then .inl (now + 2)
    else .inr (now + 2))

def startCmd (port : HbaPort) : ℕ → ℕ → Option ℕ := waitClear port.cmd HBA_PxCMD_CR

/-- What `port_rebase` stores in the command list is stored there again before it is used. -/
def portRebase (port : HbaPort) (turns now : ℕ) : Option ℕ := do
  let now ← stopCmd port turns now
  startCmd port turns now

def setBits (port : HbaPort) (turns now : ℕ) : Option ℕ := do
  let now ← waitClear port.cmd HBA_PxCMD_CR turns now
  waitClear port.cmd HBA_PxCMD_FR turns now

/-- The first loop of `set_bits_after_di`. -/
def linkLoop (port : HbaPort) : ℕ → ℕ → Option ℕ :=
  Loop.run fun now => some (
    let ipm := port.ssts now >>> 8 &&& 0x0F
    let det := port.ssts (now + 1) &&& 0x0F
    if (det ≠ 3 ∨ det ≠ 1) ∧ ipm ≠ 1 then .inl (now + 2) else .inr (now + 2))

/-- Its second one. -/
def readyLoop (port : HbaPort) : ℕ → ℕ → Option ℕ :=
  Loop.run fun now => some (
    if port.tfd now &&& HBA_PxTDF_BSY ≠ 0 then .inl (now + 1)
    else if port.tfd (now + 1) &&& HBA_PxTDF_DRQ ≠ 0 then .inl (now + 2)
    else if port.tfd (now + 2) &&& HBA_PxTDF_ERR ≠ 0 then .inl (now + 3)
    else .inr (now + 3))

def setBitsAfterDi (port : HbaPort) (turns now : ℕ) : Option ℕ := do
  let now ← linkLoop port turns now
  readyLoop port turns now

/-- The loop that counts `spin`, with what it is short of 1000000: whether it comes to that. -/
def spinLoop (port : HbaPort) : ℕ → ℕ → Bool × ℕ
  | 0, now => (true, now + 1)
  | left + 1, now =>
    if port.tfd now &&& (ATA_DEV_BUSY ||| ATA_DEV_DRQ) = 0 then (false, now + 1)
    else spinLoop port left (now + 1)

/-- The wait for the end of the command in `slot`, and whether there was no error. -/
def completeLoop (port : HbaPort) (slot : ℕ) : ℕ → ℕ → Option (Bool × ℕ) :=
  Loop.run fun now => some (
    if port.ci now &&& (1 : UInt32) <<< .ofNat slot = 0 then
      .inr (port.isRwc (now + 1) &&& HBA_PxIS_TFES = 0, now + 2)
    else if port.isRwc (now + 1) &&& HBA_PxIS_TFES ≠ 0 then .inr (false, now + 2)
    else .inl (now + 2))

/-! ## Commands -/

/-- An entry of the table of physical regions. -/
structure PrdtEntry where
  dba : UInt32
  dbau : UInt32
  dbc : BitVec 22
  i : Bool
  deriving DecidableEq, Repr

/-- The fields of a command FIS that are stored; the others are 0. -/
structure FisRegH2d where
  fisType : UInt8
  c : Bool
  command : UInt8
  lba0 : UInt8
  lba1 : UInt8
  lba2 : UInt8
  device : UInt8
  lba3 : UInt8
  lba4 : UInt8
  lba5 : UInt8
  countl : UInt8
  counth : UInt8
  deriving DecidableEq, Repr

/-- The fields of a command header that are stored, and the command table it points to. -/
structure Command where
  cfl : BitVec 5
  w : Bool
  prdtl : UInt16
  c : Bool
  cfis : FisRegH2d
  prdtEntry : List PrdtEntry
  deriving DecidableEq, Repr

def FIS_TYPE_REG_H2D : UInt8 := 0x27
def ATA_CMD_READ_DMA_EX : UInt8 := 0x25
def ATA_CMD_WRITE_DMA_EX : UInt8 := 0x35

/-- The loop of `find_cmdslot`, from slot `i` on. -/
def cmdslotLoop (slots : UInt32) : ℕ → ℕ → Option ℕ
  | 0, _ => none
  | left + 1, i => if slots &&& 1 = 0 then some i else cmdslotLoop (slots >>> 1) left (i + 1)

def findCmdslot (abar : HbaMem) (port : HbaPort) (now : ℕ) : Option ℕ :=
  cmdslotLoop (port.sact now ||| port.ci (now + 1)) ((abar.cap &&& 0xf00) >>> 8).toNat 0

/-- The loop over the entries but the last: what is stored, and `buf` and `count` behind it. -/
def prdtLoop : ℕ → UInt64 → UInt32 → List PrdtEntry × UInt64 × UInt32
  | 0, buf, count => ([], buf, count)
  | left + 1, buf, count =>
    let (entries, buf', count') := prdtLoop left (buf + 4 * 1024) (count - 16)
    ({ dba := buf.toUInt32, dbau := 0, dbc := 8 * 1024, i := true } :: entries, buf', count')

/-- The command `read_pci` and `write` build; the command table is cleared before. -/
def buildCommand (w : Bool) (command : UInt8) (startl starth count : UInt32) (buf : UInt64) :
    Command :=
  let prdtl : UInt16 := ((count - 1) >>> 4).toUInt16 + 1
  let (entries, buf, count) := prdtLoop (prdtl.toNat - 1) buf count
  let last : PrdtEntry :=
    { dba := (buf &&& 0xFFFFFFFF).toUInt32
      dbau := (buf >>> 32 &&& 0xFFFFFFFF).toUInt32
      dbc := .ofNat 22 (count <<< 9).toNat
      i := true }
  { cfl := 5
    w := w
    prdtl := prdtl
    c := true
    prdtEntry := entries ++ [last]
    cfis :=
      { fisType := FIS_TYPE_REG_H2D
        c := true
        command := command
        lba0 := startl.toUInt8
        lba1 := (startl >>> 8).toUInt8
        lba2 := (startl >>> 16).toUInt8
        device := (1 : UInt8) <<< 6
        lba3 := (startl >>> 24).toUInt8
        lba4 := starth.toUInt8
        lba5 := (starth >>> 8).toUInt8
        countl := (count &&& 0xff).toUInt8
        counth := (count >>> 8 &&& 0xff).toUInt8 } }

/-- The slot and the command that has been built for it, and how the function returns. -/
abbrev Transfer := Option (ℕ × Command) × Option (Bool × ℕ)

def transfer (w : Bool) (command : UInt8) (abar : HbaMem) (port : HbaPort)
    (startl starth count : UInt32) (buf : UInt64) (turns now : ℕ) : Transfer :=
  match findCmdslot abar port now with
  | none => (none, some (false, now + 2))
  | some slot => (some (slot, buildCommand w command startl starth count buf), do
      let now ← setBitsAfterDi port turns (now + 2)
      let (hung, now) := spinLoop port 1000000 now
      if hung then return (false, now) else completeLoop port slot turns now)

def readPci := transfer false ATA_CMD_READ_DMA_EX

def write := transfer true ATA_CMD_WRITE_DMA_EX

/-- It always uses the first port. -/
def initWrite (abar : HbaMem) (turns now : ℕ) : Option ℕ := do
  let port := abar.ports 0
  let now ← portRebase port turns now
  let now ← setBits port turns now
  let (_, now) ← (write abar port 0 0 1 0x300000 turns now).2
  let now ← setBits port turns now
  let (_, now) ← (readPci abar port 0 0 1 0x600000 turns now).2
  return now

/-! ## Devices -/

inductive AhciDev
  | sata
  | satapi
  | semb
  | pm
  deriving DecidableEq, Repr

def SATA_SIG_ATAPI : UInt32 := 0xEB140101
def SATA_SIG_SEMB : UInt32 := 0xC33C0101
def SATA_SIG_PM : UInt32 := 0x96690101

def checkType (port : HbaPort) : AhciDev :=
  if port.sig = SATA_SIG_ATAPI then .satapi
  else if port.sig = SATA_SIG_SEMB then .semb
  else if port.sig = SATA_SIG_PM then .pm
  else .sata

/-- The loop of `probe_port`, at the port `i`. -/
def portLoop (abar : HbaMem) (turns : ℕ) : ℕ → UInt32 → ℕ → Option ℤ
  | 0, _, _ => some (-1)
  | left + 1, pi, i =>
    if pi &&& 1 ≠ 0 ∧ checkType (abar.ports i) = .sata then do
      let _ ← initWrite abar turns 0
      return 1
    else portLoop abar turns left (pi >>> 1) (i + 1)

def probePort (abar : HbaMem) (turns : ℕ) : Option ℤ := portLoop abar turns 32 abar.pi 0

/-- The configuration space, as it is read after each write of `MEM_ADDR` to the same place, and
the controllers by their addresses. -/
structure Machine where
  inl : UInt32 → UInt32
  hba : UInt64 → HbaMem

def pciConfigReadWord (m : Machine) (bus slot func offset : UInt8) : UInt16 :=
  let address := bus.toUInt32 <<< 16 ||| slot.toUInt32 <<< 11 ||| func.toUInt32 <<< 8 |||
    (offset &&& 0xfc).toUInt32 ||| 0x80000000
  (m.inl address >>> ((offset &&& 2).toUInt32 * 8)).toUInt16

/-- The value of `ahci_addr` then. -/
def fetchAhciAddr (m : Machine) (busNum deviceNum func : UInt8) : UInt64 :=
  let lAddr := pciConfigReadWord m busNum deviceNum func 0x24
  let hAddr := pciConfigReadWord m busNum deviceNum func 0x26
  (hAddr.toUInt32 <<< 16 ||| lAddr.toUInt32).toUInt64

/-- A result of 1 with the address that is fetched, or -1. -/
def checkDevice (m : Machine) (busNum deviceNum : UInt8) : Option UInt64 :=
  if pciConfigReadWord m busNum deviceNum 0 0 = 0xFFFF then none
  else
    let classScId := pciConfigReadWord m busNum deviceNum 0 0x0A
    let header := pciConfigReadWord m busNum deviceNum 0 0x0E
    if header &&& 0xff = 0x80 then
      (([0, 1, 2, 3, 4, 5, 6, 7] : List UInt8).find? fun func =>
        pciConfigReadWord m busNum deviceNum func 0 ≠ 0xFFFF ∧
          pciConfigReadWord m busNum deviceNum func 0x0A = 0x0106).map
        (fetchAhciAddr m busNum deviceNum)
    else if classScId = 0x0106 then some (fetchAhciAddr m busNum deviceNum 0)
    else none

/-! ## `enumerate_pci` -/

def BUS_NUM : ℕ := 256
def DEVICE_NUM : ℕ := 32

/-- The buses and slots `check_device` has been called for. -/
abbrev Visits := List (UInt8 × UInt8)

theorem toNat_next {j : UInt8} (h : j.toNat < DEVICE_NUM) : (j + 1).toNat = j.toNat + 1 := by
  have hadd : (j + 1).toNat = (j.toNat + 1) % 2 ^ 8 := UInt8.toNat_add j 1
  rw [hadd, Nat.mod_eq_of_lt]
  exact Nat.lt_of_lt_of_le (Nat.succ_lt_succ h) (by decide)

/-- The loop over the slots of the bus `i`: `found` and `j` behind it. -/
def slotLoop (m : Machine) (turns : ℕ) (i j : UInt8) (seen : Visits) :
    Option (Bool × UInt8 × Visits) :=
  if j.toNat < DEVICE_NUM then
    match checkDevice m i j with
    | none => slotLoop m turns i (j + 1) (seen ++ [(i, j)])
    | some ahciAddr => do
      let ret ← probePort (m.hba ahciAddr) turns
      return (0 < ret, j, seen ++ [(i, j)])
  else some (false, j, seen)
  termination_by DEVICE_NUM - j.toNat
  decreasing_by
    rename_i h
    rw [toNat_next h]
    exact Nat.sub_lt_sub_left h (Nat.lt_succ_self _)

/-- The variables of `enumerate_pci`, and the visits. -/
structure Scan where
  found : Bool
  i : UInt8
  j : UInt8
  seen : Visits

/-- A turn of the loop over the buses; its counter is a byte. -/
def busTurn (m : Machine) (turns : ℕ) (s : Scan) : Option (Scan ⊕ Scan) :=
  if s.found = false ∧ s.i.toNat < BUS_NUM then do
    let (found, j, seen) ← slotLoop m turns s.i 0 s.seen
    return .inl { found := found, i := s.i + 1, j := j, seen := seen }
  else some (.inr s)

/-- The bus and the device that are printed if there is one, and the visits; `j` is not set at
first. -/
def enumeratePci (m : Machine) (turns : ℕ) : Option (Option (UInt8 × UInt8) × Visits) := do
  let s ← Loop.run (busTurn m turns) turns { found := false, i := 0, j := 0, seen := [] }
  return (if s.found then some (s.i - 1, s.j - 1) else none, s.seen)

end Bgox.Pci
