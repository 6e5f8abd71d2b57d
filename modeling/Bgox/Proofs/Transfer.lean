import Mathlib.Algebra.Group.Nat.Defs
import Mathlib.Data.Set.Lattice
import Mathlib.Order.Interval.Set.Defs
import Bgox.Pci

/-!
# Disk transfers

The table of a command is right for transfers of up to 16 sectors, which have one entry.  In longer
ones the loop of `read_pci` and `write` moves `buf` on by 4096 bytes for each entry of 8192, and the
sectors it has taken off `count` are missing in the FIS.
-/

namespace Bgox.Pci

/-- The bytes an entry stands for. -/
def PrdtEntry.bytes (e : PrdtEntry) : Set ℕ := Set.Ico e.dba.toNat (e.dba.toNat + e.dbc.toNat)

/-- The command moves the `c` sectors at `buf`. -/
structure Describes (cmd : Command) (buf c : ℕ) : Prop where
  prdtl : cmd.prdtl.toNat = cmd.prdtEntry.length
  start : cmd.prdtEntry.head?.map (·.dba.toNat) = some buf
  consecutive : cmd.prdtEntry.IsChain fun e e' => e'.dba.toNat = e.dba.toNat + e.dbc.toNat
  disjoint : cmd.prdtEntry.Pairwise fun e e' => e.bytes ∩ e'.bytes = ∅
  covers : ⋃ e ∈ cmd.prdtEntry, e.bytes = Set.Ico buf (buf + 512 * c)
  count : cmd.cfis.countl.toNat + 256 * cmd.cfis.counth.toNat = c

section Command

variable (w : Bool) (command : UInt8) (startl starth : UInt32) {buf : UInt64} {count : UInt32}

/-- What an entry says of the memory. -/
def PrdtEntry.region (e : PrdtEntry) : ℕ × ℕ := (e.dba.toNat, e.dbc.toNat)

/-! ## The loop -/

/-- The sectors that are left behind the loop. -/
theorem prdtLoop_count : ∀ (left : ℕ) (buf : UInt64) (count : UInt32), 16 * left ≤ count.toNat →
    (prdtLoop left buf count).2.2.toNat = count.toNat - 16 * left
  | 0, _, _, _ => rfl
  | left + 1, buf, count, h => by
    have hsub : (count - 16).toNat = count.toNat - 16 :=
      UInt32.toNat_sub_of_le _ _ (UInt32.le_iff_toNat_le.2 (by simp; omega))
    rw [prdtLoop, prdtLoop_count left _ _ (by omega), hsub]
    omega

/-- `buf` behind a turn of the loop. -/
theorem toNat_next_buf {left : ℕ} (h : buf.toNat + 4096 * (left + 1) < 2 ^ 32) :
    (buf + 4 * 1024).toNat = buf.toNat + 4096 ∧
      (buf + 4 * 1024).toNat + 4096 * left < 2 ^ 32 := by
  have hadd : (buf + 4 * 1024).toNat = buf.toNat + 4096 := by
    rw [UInt64.toNat_add, show (4 * 1024 : UInt64).toNat = 4096 from rfl, Nat.mod_eq_of_lt]
    exact Nat.lt_of_le_of_lt (by omega) (Nat.lt_trans h (by decide))
  rw [hadd]
  rw [Nat.mul_succ, Nat.add_comm (4096 * left), ← Nat.add_assoc] at h
  exact ⟨rfl, h⟩

theorem prdtLoop_buf : ∀ (left : ℕ) (buf : UInt64) (count : UInt32),
    buf.toNat + 4096 * left < 2 ^ 32 →
      (prdtLoop left buf count).2.1.toNat = buf.toNat + 4096 * left
  | 0, _, _, _ => rfl
  | left + 1, buf, count, h => by
    obtain ⟨hadd, hlt⟩ := toNat_next_buf h
    rw [prdtLoop, prdtLoop_buf left _ _ hlt, hadd, Nat.mul_succ, Nat.add_comm (4096 * left),
      Nat.add_assoc]

theorem prdtLoop_regions : ∀ (left : ℕ) (buf : UInt64) (count : UInt32),
    buf.toNat + 4096 * left < 2 ^ 32 → (prdtLoop left buf count).1.map PrdtEntry.region
      = (List.range left).map fun k => (buf.toNat + 4096 * k, 8192)
  | 0, _, _, _ => rfl
  | left + 1, buf, count, h => by
    obtain ⟨hadd, hlt⟩ := toNat_next_buf h
    have hdba : buf.toUInt32.toNat = buf.toNat := by
      rw [UInt64.toNat_toUInt32]
      omega
    have hdbc : (8 * 1024 : BitVec 22).toNat = 8192 := by decide
    rw [prdtLoop, List.map_cons, prdtLoop_regions left _ _ hlt, hadd, List.range_succ_eq_map,
      List.map_cons, List.map_map, PrdtEntry.region, hdba, hdbc, Nat.mul_zero, Nat.add_zero]
    refine congrArg (List.cons _) (List.map_congr_left fun k _ => ?_)
    rw [Function.comp, Nat.mul_succ, Nat.add_comm (4096 * k), Nat.add_assoc]

/-! ## The command -/

theorem toNat_prdtl (hpos : 1 ≤ count.toNat) (hle : count.toNat ≤ 65535) :
    (((count - 1) >>> 4).toUInt16 + 1).toNat = (count.toNat - 1) / 16 + 1 := by
  have hsub : (count - 1).toNat = count.toNat - 1 :=
    UInt32.toNat_sub_of_le _ _ (UInt32.le_iff_toNat_le.2 hpos)
  have hshift : ((count - 1) >>> 4).toNat = (count.toNat - 1) / 16 := by
    rw [UInt32.toNat_shiftRight, hsub, Nat.shiftRight_eq_div_pow]
    rfl
  rw [UInt16.toNat_add, UInt32.toNat_toUInt16, hshift]
  simp only [UInt16.reduceToNat]
  omega

/-- The count of a FIS has 16 bits. -/
theorem toNat_count (c : UInt32) : (c &&& 0xff).toUInt8.toNat
    + 256 * (c >>> 8 &&& 0xff).toUInt8.toNat = c.toNat % 65536 := by
  have hlow : ∀ d : UInt32, (d &&& 0xff).toUInt8.toNat = d.toNat % 256 := by
    intro d
    rw [UInt32.toNat_toUInt8, UInt32.toNat_and]
    exact (congrArg (· % 2 ^ 8) (Nat.and_two_pow_sub_one_eq_mod d.toNat 8)).trans (Nat.mod_mod _ _)
  have hshift : (c >>> 8).toNat = c.toNat / 256 := by
    rw [UInt32.toNat_shiftRight, Nat.shiftRight_eq_div_pow]
    rfl
  rw [hlow, hlow, hshift]
  omega

/-- The FIS has the sectors of the last entry. -/
theorem fis_count (buf : UInt64) (hpos : 1 ≤ count.toNat) (hle : count.toNat ≤ 65535) :
    (buildCommand w command startl starth count buf).cfis.countl.toNat
      + 256 * (buildCommand w command startl starth count buf).cfis.counth.toNat
        = count.toNat - 16 * ((count.toNat - 1) / 16) := by
  simp only [buildCommand]
  rw [toNat_count, toNat_prdtl hpos hle, Nat.add_sub_cancel, prdtLoop_count _ _ _ (by omega)]
  omega

/-- The whole table. -/
theorem prdtEntry_regions (hpos : 1 ≤ count.toNat) (hle : count.toNat ≤ 65535)
    (hbuf : buf.toNat + 512 * count.toNat < 2 ^ 32) :
    (buildCommand w command startl starth count buf).prdtEntry.map PrdtEntry.region
      = ((List.range ((count.toNat - 1) / 16)).map fun k => (buf.toNat + 4096 * k, 8192))
        ++ [(buf.toNat + 4096 * ((count.toNat - 1) / 16),
          512 * (count.toNat - 16 * ((count.toNat - 1) / 16)))] := by
  simp only [buildCommand]
  rw [toNat_prdtl hpos hle, Nat.add_sub_cancel]
  generalize hleft : (count.toNat - 1) / 16 = left
  have hlt : buf.toNat + 4096 * left < 2 ^ 32 := by omega
  have hend := prdtLoop_buf left buf count hlt
  have hcount := prdtLoop_count left buf count (by omega)
  rw [List.map_append, prdtLoop_regions left buf count hlt, List.map_singleton, PrdtEntry.region]
  generalize prdtLoop left buf count = r at hend hcount
  have hdba : (r.2.1 &&& 0xFFFFFFFF).toUInt32.toNat = r.2.1.toNat := by
    have hand : r.2.1.toNat &&& (0xFFFFFFFF : UInt64).toNat = r.2.1.toNat % 2 ^ 32 :=
      Nat.and_two_pow_sub_one_eq_mod r.2.1.toNat 32
    rw [UInt64.toNat_toUInt32, UInt64.toNat_and, hand]
    omega
  have hdbc : (BitVec.ofNat 22 (r.2.2 <<< 9).toNat).toNat = 512 * r.2.2.toNat := by
    have hshift : (r.2.2 <<< 9).toNat = r.2.2.toNat * 512 % 2 ^ 32 := by
      rw [UInt32.toNat_shiftLeft, Nat.shiftLeft_eq]
      rfl
    rw [BitVec.toNat_ofNat, hshift]
    omega
  rw [hdba, hdbc, hend, hcount]

/-- A transfer of up to 16 sectors has one entry. -/
theorem exists_entry (hpos : 1 ≤ count.toNat) (hle : count.toNat ≤ 16)
    (hbuf : buf.toNat + 512 * count.toNat < 2 ^ 32) :
    ∃ e, (buildCommand w command startl starth count buf).prdtEntry = [e] ∧
      e.region = (buf.toNat, 512 * count.toNat) := by
  have hregions := prdtEntry_regions w command startl starth hpos (by omega) hbuf
  rw [show (count.toNat - 1) / 16 = 0 by omega] at hregions
  exact List.map_eq_singleton_iff.1 hregions

theorem describes_of_le (hpos : 1 ≤ count.toNat) (hle : count.toNat ≤ 16)
    (hbuf : buf.toNat + 512 * count.toNat < 2 ^ 32) :
    Describes (buildCommand w command startl starth count buf) buf.toNat count.toNat := by
  obtain ⟨e, hentry, hregion⟩ := exists_entry w command startl starth hpos hle hbuf
  obtain ⟨hdba, hdbc⟩ := Prod.mk.inj hregion
  have hprdtl : (buildCommand w command startl starth count buf).prdtl.toNat = 1 := by
    refine (toNat_prdtl hpos (by omega)).trans ?_
    omega
  have hcount := fis_count w command startl starth buf hpos (by omega)
  generalize buildCommand w command startl starth count buf = cmd at *
  refine ⟨?_, ?_, ?_, ?_, ?_, by omega⟩
  · simp [hentry, hprdtl]
  · simp [hentry, hdba]
  · simp [hentry]
  · simp [hentry]
  · simp [hentry, PrdtEntry.bytes, hdba, hdbc]

theorem describes_iff (hpos : 1 ≤ count.toNat) (hle : count.toNat ≤ 65535)
    (hbuf : buf.toNat + 512 * count.toNat < 2 ^ 32) :
    Describes (buildCommand w command startl starth count buf) buf.toNat count.toNat ↔
      count.toNat ≤ 16 := by
  constructor
  · intro h
    have hcount := h.count
    rw [fis_count w command startl starth buf hpos hle] at hcount
    omega
  · exact fun hshort => describes_of_le w command startl starth hpos hshort hbuf

end Command

/-- `read_pci` and `write` build a command for the requested bytes exactly if there are at most 16
sectors of them. -/
theorem transfers_describe_iff (abar : HbaMem) (port : HbaPort) (startl starth count : UInt32)
    (buf : UInt64) (wait now slot : ℕ) (hslot : findCmdslot abar port now = some slot)
    (hpos : 1 ≤ count.toNat) (hle : count.toNat ≤ 65535)
    (hbuf : buf.toNat + 512 * count.toNat < 2 ^ 32) :
    (∃ cmd, (readPci abar port startl starth count buf wait now).1 = some (slot, cmd) ∧
      (Describes cmd buf.toNat count.toNat ↔ count.toNat ≤ 16)) ∧
    ∃ cmd, (write abar port startl starth count buf wait now).1 = some (slot, cmd) ∧
      (Describes cmd buf.toNat count.toNat ↔ count.toNat ≤ 16) := by
  have hbuilt : ∀ w command,
      (transfer w command abar port startl starth count buf wait now).1
        = some (slot, buildCommand w command startl starth count buf) := by
    intro w command
    rw [transfer, hslot]
  exact ⟨⟨_, hbuilt _ _, describes_iff _ _ startl starth hpos hle hbuf⟩,
    _, hbuilt _ _, describes_iff _ _ startl starth hpos hle hbuf⟩

/-- A port with a disk that is ready at all times. -/
def readyPort : HbaPort where
  sig := 0x00000101
  isRwc _ := 0
  cmd _ := 0
  tfd _ := 0x50
  ssts _ := 0x113
  sact _ := 0
  ci _ := 0

def readyHba : HbaMem where
  cap := 0x1f00
  pi := 1
  ports _ := readyPort

theorem transfers_describe_eight :
    (∃ cmd, (readPci readyHba readyPort 0 0 8 0x300000 0 0).1 = some (0, cmd) ∧
      Describes cmd 0x300000 8) ∧
    ∃ cmd, (write readyHba readyPort 0 0 8 0x300000 0 0).1 = some (0, cmd) ∧
      Describes cmd 0x300000 8 := by
  obtain ⟨⟨r, hr, hread⟩, w, hw, hwrite⟩ := transfers_describe_iff readyHba readyPort 0 0 8 0x300000
    0 0 0 (by decide) (by decide) (by decide) (by decide)
  exact ⟨⟨r, hr, hread.2 (by decide)⟩, w, hw, hwrite.2 (by decide)⟩

/-- The second entry begins in the middle of the first, and the FIS has one sector. -/
theorem write_seventeen : ∃ cmd,
    (write readyHba readyPort 0 0 17 0x300000 0 0).1 = some (0, cmd) ∧
    cmd.prdtEntry = [⟨0x300000, 0, 8192, true⟩, ⟨0x301000, 0, 512, true⟩] ∧
    cmd.cfis.countl = 1 ∧ cmd.cfis.counth = 0 ∧ ¬ Describes cmd 0x300000 17 := by
  refine ⟨_, rfl, by decide, by decide, by decide, fun h => ?_⟩
  exact absurd h.count (by decide)

end Bgox.Pci
