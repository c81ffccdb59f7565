/-
`RamDump`: the files of a dump and the reads from them.

A file of `ebi_files` stands for the addresses `start` to `end`, both included, and a read goes to
the first file with the address. What comes back can be shorter than asked for, and
`struct.unpack` then raises. An address that no file has gives `None`, which the callers test for
in their own ways.

Reads at virtual addresses ask a translator first; the translator is a parameter here, in any
monad with exceptions, because two translators are of interest: one that walks the tables each
time, and one with a dictionary in front of them, which keeps a state between the reads.
-/
import AndroidTools.Lib.Bytes
import AndroidTools.Ramdump.Armv8

set_option autoImplicit false

namespace AndroidTools.Ramdump

open Bytes

/-! ## Physical reads

A read of bytes from the files, and the formats that `struct.unpack` makes numbers of.
Nothing is translated here.
-/

/-- `(fd, start, end, path)`, the contents in place of the descriptor. -/
structure EbiFile where
  contents : List UInt8
  start : ℕ
  stop : ℕ
  deriving Repr, DecidableEq

def EbiFile.Holds (a : EbiFile) (addr : ℕ) : Prop := a.start ≤ addr ∧ addr ≤ a.stop

instance (a : EbiFile) (addr : ℕ) : Decidable (a.Holds addr) :=
  inferInstanceAs (Decidable (_ ∧ _))

/-- The exceptions of a read: of `struct.unpack`, of an addition to `None`, and those of the
page table walk. -/
inductive ReadStop where
  | struct_error
  | type_error
  | invalid_translation (e : InvalidTranslation)
  deriving Repr, DecidableEq

/-- `read_physical`. An address of `None` is below every file. -/
def read_physical (ebi_files : List EbiFile) (addr : Option ℕ) (length : ℕ) :
    Option (List UInt8) :=
  addr.bind fun addr =>
    (ebi_files.find? fun a => a.Holds addr).map fun ebi =>
      slice ebi.contents (addr - ebi.start) length

/-- The formats of the reading functions: `<Q`, `<I`, `<i`, `<H`, `<B` and `<?`. -/
inductive Format where
  | u64 | u32 | s32 | u16 | byte | bool
  deriving Repr, DecidableEq

/-- `struct.calcsize` of the format. -/
def Format.size : Format → ℕ
  | u64 => 8
  | u32 | s32 => 4
  | u16 => 2
  | byte | bool => 1

/-- `struct.unpack` of as many bytes as the format has. -/
def Format.value (f : Format) (s : List UInt8) : ℤ :=
  match f with
  | s32 => if leValue s < 2 ^ 31 then leValue s else leValue s - 2 ^ 32
  | bool => if leValue s = 0 then 0 else 1
  | u64 | u32 | u16 | byte => leValue s

/-- `read_string` behind the translation: `None` for no file and at the end of one. -/
def read_string_at (ebi_files : List EbiFile) (addr : Option ℕ) (format : Format) :
    Except ReadStop (Option ℤ) :=
  match read_physical ebi_files addr format.size with
  | none => .ok none
  | some s =>
    if s = [] then .ok none
    else if s.length = format.size then .ok (some (format.value s))
    else .error .struct_error

/-! ## Reads at virtual addresses

The methods of the class in which an address is translated on the way. An argument can be a
name, which the debugger resolves, and the fields per CPU add an offset that is itself read
from the dump.
-/

/-- `addr_or_name`, the argument of the reads. -/
inductive AddrOrName where
  | addr (a : Option ℕ)
  | name (s : String)
  deriving Repr, DecidableEq

/-- What the reads use of a dump; `address_of` is the debugger's, and `long_size` is
`sizeof('unsigned long')`. -/
structure RamDump where
  ebi_files : List EbiFile
  arm64 : Bool
  address_of : String → Option ℕ
  long_size : ℕ

namespace RamDump

/-- `resolve_virt`: the address itself, or that of the symbol. -/
def resolve_virt (d : RamDump) : AddrOrName → Option ℕ
  | .addr a => a
  | .name s => d.address_of s

/-- A physical address. A name is above every file, so nothing is read for it. -/
def physical : AddrOrName → Option ℕ
  | .addr a => a
  | .name _ => none

/-- The format of `read_word`, by the width of the dump. -/
def word (d : RamDump) : Format := if d.arm64 then .u64 else .u32

section

variable {m : Type → Type} [Monad m] [MonadLiftT (Except ReadStop) m]

variable (d : RamDump) (virt_to_phys : Option ℕ → m (Option ℕ))

/-- `read_string` of an address, without `cpu`; the value in place of the tuple. -/
def read_string_global (addr_or_name : AddrOrName) (format : Format) (virt : Bool) :
    m (Option ℤ) := do
  let addr ← if virt then virt_to_phys (d.resolve_virt addr_or_name)
    else pure (physical addr_or_name)
  liftM (read_string_at d.ebi_files addr format)

/-- `per_cpu_offset`, itself a read at a virtual address. -/
def per_cpu_offset (cpu : ℕ) : m (Option ℤ) :=
  match d.address_of "__per_cpu_offset" with
  | none => pure (some 0)
  | some a => d.read_string_global virt_to_phys (.addr (some (a + d.long_size * cpu))) d.word true

/-- `x + y`, which raises where one of the two is `None`. -/
def add_or_raise (x : Option ℕ) (y : Option ℤ) : Except ReadStop ℕ :=
  match x, y with
  | some x, some y => .ok (x + y.toNat)
  | _, _ => .error .type_error

/-- `read_string`: one field, at a virtual or at a physical address. -/
def read_string (addr_or_name : AddrOrName) (format : Format) (virt : Bool) (cpu : Option ℕ) :
    m (Option ℤ) :=
  match virt, cpu with
  | true, some cpu => do
    let pcpu_offset ← d.per_cpu_offset virt_to_phys cpu
    let addr ← liftM (add_or_raise (d.resolve_virt addr_or_name) pcpu_offset)
    d.read_string_global virt_to_phys (.addr (some addr)) format true
  | virt, _ => d.read_string_global virt_to_phys addr_or_name format virt

/-- What `read_cstring` makes of the bytes: ASCII up to the first `\0`. -/
def cstring (s : List UInt8) : List UInt8 := (s.filter (· < 128)).takeWhile (· ≠ 0)

/-- `read_cstring`, which adds the offset of the CPU twice. -/
def read_cstring (addr_or_name : AddrOrName) (max_length : ℕ) (virt : Bool) (cpu : Option ℕ) :
    m (Option (List UInt8)) := do
  let addr ← match virt, cpu with
    | true, some cpu => do
      let pcpu_offset ← d.per_cpu_offset virt_to_phys cpu
      let addr := d.resolve_virt addr_or_name
      let again ← d.per_cpu_offset virt_to_phys cpu
      let once ← liftM (add_or_raise (pcpu_offset.map Int.toNat) again)
      let addr ← liftM (add_or_raise addr (some once))
      virt_to_phys (some addr)
    | true, none => virt_to_phys (d.resolve_virt addr_or_name)
    | false, _ => pure (physical addr_or_name)
  pure ((read_physical d.ebi_files addr max_length).map cstring)

end

end RamDump

end AndroidTools.Ramdump
