/-
`MMU.virt_to_phys`: the "TLB" in front of the page table walk.

Every virtual read of a dump goes through one dictionary that outlives the read, also when the
read raises. `answers_without_tlb` is that a dump answers any requests, in any order and with any
of the flags, as it would if it walked the tables each time.

The dictionary is the state of a monad, and what is proved is an invariant of it, `SoundTlb`: it
only ever holds what the walk would find. The rules for such computations come from the library,
and the requests are built from reads and translations, so each kind of request needs one use of
the rules.
-/
import AndroidTools.Lib.Memo
import AndroidTools.Ramdump.Memory

set_option autoImplicit false

namespace AndroidTools.Ramdump

open Dict Memo

/-- `_tlb`, the dictionary. An address without a translation is kept too. -/
abbrev Tlb := List (ℕ × Option ℕ)

/-- What a method of the dump does to the TLB, and its value or exception. -/
abbrev ReadM := ExceptT ReadStop (StateM Tlb)

/-- `page_table_walk`, which may raise. -/
abbrev PageTableWalk := ℕ → Except ReadStop (Option ℕ)

section

variable (page_table_walk : PageTableWalk)

/-- `virt_to_phys`: the dictionary is asked first and may be filled, by the two flags. -/
def virt_to_phys (addr : Option ℕ) (skip_tlb save_in_tlb : Bool) : ReadM (Option ℕ) :=
  match addr with
  | none => pure none
  | some addr => do
    let tlb ← get
    match if skip_tlb then none else dictGet tlb addr with
    | some phys_addr => pure phys_addr
    | none => do
      let phys_addr ← liftM (page_table_walk addr)
      if save_in_tlb then modify fun tlb => dictSet tlb (addr, phys_addr)
      pure phys_addr

/-- `virt_to_phys` without a TLB, which walks the tables every time. -/
def walk_each_time (addr : Option ℕ) : Except ReadStop (Option ℕ) :=
  match addr with
  | none => pure none
  | some addr => page_table_walk addr

end

/-! ## Requests

The methods a user of the dump calls, as one type, and their answers. They are defined over
any way to translate, so the dump with the dictionary and the one without it run the same
definition.
-/

/-- A call of one of the methods; the readers of a fixed format are `string`s. -/
inductive ReadRequest where
  | translate (addr_or_name : AddrOrName) (skip_tlb save_in_tlb : Bool)
  | string (addr_or_name : AddrOrName) (format : Format) (virt : Bool) (cpu : Option ℕ)
  | cstring (addr_or_name : AddrOrName) (max_length : ℕ) (virt : Bool) (cpu : Option ℕ)
  deriving Repr, DecidableEq

/-- What a call of one of the reads returns. -/
inductive ReadAnswer where
  | phys (addr : Option ℕ)
  | value (v : Option ℤ)
  | text (s : Option (List UInt8))
  deriving Repr, DecidableEq

namespace RamDump

variable (d : RamDump)

section

variable {m : Type → Type} [Monad m] [MonadLiftT (Except ReadStop) m]

/-- The answer to a request, of a dump that translates with `to_phys`. -/
def answer (to_phys : Bool → Bool → Option ℕ → m (Option ℕ)) : ReadRequest → m ReadAnswer
  | .translate a skip_tlb save_in_tlb => do
    let phys ← to_phys skip_tlb save_in_tlb (d.resolve_virt a)
    pure (.phys phys)
  | .string a format virt cpu => do
    let v ← d.read_string (to_phys false true) a format virt cpu
    pure (.value v)
  | .cstring a max_length virt cpu => do
    let s ← d.read_cstring (to_phys false true) a max_length virt cpu
    pure (.text s)

end

variable (page_table_walk : PageTableWalk)

/-- A request of a dump that translates through the TLB. -/
def serve (r : ReadRequest) : ReadM ReadAnswer :=
  d.answer (fun skip_tlb save_in_tlb a => virt_to_phys page_table_walk a skip_tlb save_in_tlb) r

/-- A request of a dump that walks the tables for every translation. -/
def serve_plain (r : ReadRequest) : Except ReadStop ReadAnswer :=
  d.answer (fun _ _ a => walk_each_time page_table_walk a) r

end RamDump

/-! ## The TLB makes no difference

The dictionary holds results of walks, before and behind every request, and an answer found
in it is therefore the one a walk would give. Each method has one lemma, built with the
rules of the library.
-/

section

variable {page_table_walk : PageTableWalk}

/-- The invariant of the dictionary: what it holds are the results of walks. -/
abbrev SoundTlb (page_table_walk : PageTableWalk) (tlb : Tlb) : Prop := Sound page_table_walk tlb

/-- An answer from the dictionary, a walk that raises, or a walk whose result is kept unless
`save_in_tlb` is off. -/
theorem virt_to_phys_run (addr : ℕ) (skip_tlb save_in_tlb : Bool) (tlb : Tlb) :
    (virt_to_phys page_table_walk (some addr) skip_tlb save_in_tlb).run.run tlb
      = match (if skip_tlb then none else dictGet tlb addr), page_table_walk addr with
        | some phys_addr, _ => (.ok phys_addr, tlb)
        | none, .error e => (.error e, tlb)
        | none, .ok phys_addr =>
          (.ok phys_addr, if save_in_tlb then dictSet tlb (addr, phys_addr) else tlb) := by
  have hget : (virt_to_phys page_table_walk (some addr) skip_tlb save_in_tlb).run.run tlb
      = (match if skip_tlb then none else dictGet tlb addr with
        | some phys_addr => (pure phys_addr : ReadM (Option ℕ))
        | none => do
          let phys_addr ← liftM (page_table_walk addr)
          if save_in_tlb then modify fun tlb => dictSet tlb (addr, phys_addr)
          pure phys_addr).run.run tlb := rfl
  rw [hget]
  cases (if skip_tlb then none else dictGet tlb addr) with
  | some phys_addr => rfl
  | none =>
    cases page_table_walk addr with
    | error e => rfl
    | ok phys_addr => cases save_in_tlb <;> rfl

theorem virt_to_phys_answers (addr : Option ℕ) (skip_tlb save_in_tlb : Bool) :
    Answers (SoundTlb page_table_walk) (virt_to_phys page_table_walk addr skip_tlb save_in_tlb)
      (walk_each_time page_table_walk addr) := by
  intro tlb htlb
  cases addr with
  | none => exact ⟨rfl, htlb⟩
  | some addr =>
    rw [virt_to_phys_run, walk_each_time]
    cases hhit : (if skip_tlb then none else dictGet tlb addr) with
    | some phys_addr =>
      have hget : dictGet tlb addr = some phys_addr := by
        cases skip_tlb with
        | true => cases hhit
        | false => exact hhit
      exact ⟨(htlb addr phys_addr hget).symm, htlb⟩
    | none =>
      cases hwalk : page_table_walk addr with
      | error e => exact ⟨rfl, htlb⟩
      | ok phys_addr =>
        refine ⟨rfl, ?_⟩
        cases save_in_tlb with
        | true => exact htlb.set hwalk
        | false => exact htlb

end

namespace RamDump

variable {σ : Type} {I : σ → Prop} (d : RamDump)
  {t : Option ℕ → ExceptT ReadStop (StateM σ) (Option ℕ)}
  {t' : Option ℕ → Except ReadStop (Option ℕ)}

theorem read_string_global_answers (h : ∀ a, Answers I (t a) (t' a)) (a : AddrOrName)
    (format : Format) (virt : Bool) :
    Answers I (d.read_string_global t a format virt) (d.read_string_global t' a format virt) := by
  cases virt with
  | true => exact (h _).bind fun _ => .lift _
  | false => exact (Answers.pure _).bind fun _ => .lift _

theorem per_cpu_offset_answers (h : ∀ a, Answers I (t a) (t' a)) (cpu : ℕ) :
    Answers I (d.per_cpu_offset t cpu) (d.per_cpu_offset t' cpu) := by
  unfold per_cpu_offset
  cases d.address_of "__per_cpu_offset" with
  | none => exact .pure _
  | some a => exact d.read_string_global_answers h _ _ _

theorem read_string_answers (h : ∀ a, Answers I (t a) (t' a)) (a : AddrOrName)
    (format : Format) (virt : Bool) (cpu : Option ℕ) :
    Answers I (d.read_string t a format virt cpu) (d.read_string t' a format virt cpu) := by
  cases virt with
  | false => exact d.read_string_global_answers h _ _ _
  | true =>
    cases cpu with
    | none => exact d.read_string_global_answers h _ _ _
    | some cpu =>
      exact (d.per_cpu_offset_answers h cpu).bind fun _ =>
        (Answers.lift _).bind fun _ => d.read_string_global_answers h _ _ _

theorem read_cstring_answers (h : ∀ a, Answers I (t a) (t' a)) (a : AddrOrName)
    (max_length : ℕ) (virt : Bool) (cpu : Option ℕ) :
    Answers I (d.read_cstring t a max_length virt cpu)
      (d.read_cstring t' a max_length virt cpu) := by
  cases virt with
  | false => exact (Answers.pure _).bind fun _ => .pure _
  | true =>
    cases cpu with
    | none => exact (h _).bind fun _ => .pure _
    | some cpu =>
      exact (d.per_cpu_offset_answers h cpu).bind fun _ =>
        (d.per_cpu_offset_answers h cpu).bind fun _ =>
          (Answers.lift _).bind fun _ => (Answers.lift _).bind fun _ =>
            (h _).bind fun _ => .pure _

theorem serve_answers (page_table_walk : PageTableWalk) (r : ReadRequest) :
    Answers (SoundTlb page_table_walk) (d.serve page_table_walk r)
      (d.serve_plain page_table_walk r) := by
  have h : ∀ a, Answers (SoundTlb page_table_walk) (virt_to_phys page_table_walk a false true)
      (walk_each_time page_table_walk a) := fun a => virt_to_phys_answers a false true
  cases r with
  | translate a skip_tlb save_in_tlb =>
    exact (virt_to_phys_answers _ _ _).bind fun _ => .pure _
  | string a format virt cpu =>
    exact (d.read_string_answers h a format virt cpu).bind fun _ => .pure _
  | cstring a max_length virt cpu =>
    exact (d.read_cstring_answers h a max_length virt cpu).bind fun _ => .pure _

/-- From the empty TLB on, every request is answered as if there were none. -/
theorem answers_without_tlb (page_table_walk : PageTableWalk) (requests : List ReadRequest) :
    answers (requests.map (d.serve page_table_walk)) []
      = requests.map (d.serve_plain page_table_walk) :=
  answers_eq_map (d.serve_answers page_table_walk) sound_nil

end RamDump

end AndroidTools.Ramdump
