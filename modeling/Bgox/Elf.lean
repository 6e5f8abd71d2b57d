import Bgox.AddressSpace

/-!
# Starting a program

`elf_check_file`, `elf_check_supported` and `elf_parse` of `sys/elf64.c`, on the bytes of a file.
The loader and its log are those of `Bgox.AddressSpace`.
-/

namespace Bgox

/-! ## The headers -/

namespace Vm

/-- A little-endian number of `n` bytes. -/
def readLe (image : ℕ → ℕ) : ℕ → ℕ → ℕ
  | _, 0 => 0
  | off, n + 1 => image off % 256 + 256 * readLe image (off + 1) n

/-- An `Elf64_Phdr`; `p_paddr` and `p_align` are not read. -/
def readPhdr (image : ℕ → ℕ) (off : ℕ) : Phdr where
  pType := readLe image off 4
  pFlags := readLe image (off + 4) 4
  pOffset := readLe image (off + 8) 8
  pVaddr := readLe image (off + 16) 8
  pFilesz := readLe image (off + 32) 8
  pMemsz := readLe image (off + 40) 8

def sizeofPhdr : ℕ := 56

/-- A file at an address, with the headers the loop from `phdr` to `eph` goes over.  There are none
if the end of the headers is behind that of the address space. -/
def Elf.ofImage (addr : ℕ) (image : ℕ → ℕ) : Elf :=
  let ePhoff := readLe image 32 8
  let ePhnum := readLe image 56 2
  let phdr := (addr + ePhoff) % 2 ^ 64
  let eph := (phdr + sizeofPhdr * ePhnum) % 2 ^ 64
  ⟨addr, image, if phdr < eph then
    (List.range ePhnum).map fun i => readPhdr image (ePhoff + sizeofPhdr * i) else []⟩

/-- With what is printed. -/
def elfCheckFile (f : Elf) : Bool × List String :=
  if f.addr = 0 then (false, [])
  else if f.image 0 % 256 ≠ 0x7F then (false, ["ELF Header EI_MAG0 incorrect.\n"])
  else if f.image 1 % 256 ≠ 69 then (false, ["ELF Header EI_MAG1 incorrect.\n"])
  else if f.image 2 % 256 ≠ 76 then (false, ["ELF Header EI_MAG2 incorrect.\n"])
  else if f.image 3 % 256 ≠ 70 then (false, ["ELF Header EI_MAG3 incorrect.\n"])
  else (true, [])

/-- `ELFCLASS32` is 2 and `EM_386` is 0x3E there. -/
def elfCheckSupported (f : Elf) : Bool × List String :=
  let file := elfCheckFile f
  if file.1 = false then (false, file.2 ++ ["Invalid ELF File.\n"])
  else if f.image 4 % 256 ≠ 2 then (false, ["Unsupported ELF File Class.\n"])
  else if f.image 5 % 256 ≠ 1 then (false, ["Unsupported ELF File byte order.\n"])
  else if readLe f.image 18 2 ≠ 0x3E then (false, ["Unsupported ELF File target.\n"])
  else if f.image 6 % 256 ≠ 1 then (false, ["Unsupported ELF File version.\n"])
  else if readLe f.image 16 2 ≠ 1 ∧ readLe f.image 16 2 ≠ 2 then
    (false, ["Unsupported ELF File type.\n"])
  else (true, [])

end Vm

namespace System

/-- With the value of `PID` afterwards.  The outcome of the check is not used. -/
def elfParse (s : System) (PID : ℕ) (f : Vm.Elf) : Traced Vm.Event Trap (System × ℕ) := do
  Traced.tell ((Vm.elfCheckSupported f).2.map .print)
  let (s, _) ← s.elfRunBinTrace f
  return (s, PID + 1)

end System

end Bgox
