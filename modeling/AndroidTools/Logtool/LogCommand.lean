/-
`logcommand`: the four blocks that compare the beginning of a command.

Each block copies the characters in front of the first `>`, `f`, blank or `t` into an array on the
stack and compares it with fixed commands. Nothing compares the position with the size of the
array, so a block stays inside its array where the character comes early, and a later block runs
only where no earlier one returns.

The four blocks are one definition with parameters, `prefix_block`, and each of them is that
definition at its own character, size and number of characters. What writing outside an array does
is left open: a `BlockRun` records the arrays as they are behind their copies, with `none` for one
that was left, and ends there. `Stays` says that no array was left, and `logcommand_stays_iff`
gives the exact condition on the value of the property.
-/
import AndroidTools.Lib.CString

set_option autoImplicit false

namespace AndroidTools.Logtool

open AndroidTools.Bytes AndroidTools.CString

/-! ## The commands

The twelve commands that `main` runs at once and the beginnings that the blocks compare
with, as bytes. A property has at most 91 bytes and no terminator among them, which is what
the length of `szCmd` relies on.
-/

/-- A string literal of the source, as its bytes. -/
def literal (s : String) : List UInt8 := s.toList.map fun c => UInt8.ofNat c.toNat

def cmd1 : List UInt8 := literal "top -n 1 -t"
def cmd2 : List UInt8 := literal "procrank"
def cmd3 : List UInt8 := literal "ssr_setup modem"
def cmd4 : List UInt8 := literal "ssr_setup"
def cmd5 : List UInt8 := literal "am broadcast -a \"com.asus.QPST.fw\""
def cmd6 : List UInt8 :=
  literal "echo --update_package=/cache/update.zip > /cache/recovery/command"
def cmd7 : List UInt8 := literal "reboot recovery"
def cmd8 : List UInt8 := literal "cp -r /asdf"
def cmd9 : List UInt8 := literal "am broadcast -a \"com.asus.wl.ed\""
def cmd10 : List UInt8 := literal
  "chmod -R 777 /data/logcat_log/ | chmod -R 777 /data/gps/log | chmod -R 777 /data/ramdump/"
def cmd11 : List UInt8 := literal "/data/data/com.asus.fdclogtool/files/raw_sender normal"
def cmd12 : List UInt8 := literal "/data/data/com.asus.fdclogtool/files/raw_sender compact"
def cmd13 : List UInt8 := literal "/data/debug/QMESA_64"
def cmd14 : List UInt8 := literal "QMESA_64 kill"
def cmd15 : List UInt8 := literal "\"/data/debug/raw_sender"
def cmd16 : List UInt8 := literal "\"/system/bin/raw_sender"
def cmd17 : List UInt8 := literal "cp -rf /sdcard/bt"

/-- The commands that `main` runs and returns. -/
def allowed : List (List UInt8) :=
  [cmd3, cmd4, cmd10, cmd6, cmd7, cmd5, cmd9, cmd11, cmd12, cmd13, cmd14, cmd17]

/-- The value of a property, of 91 bytes at most and without a terminator in it. -/
structure PropertyValue where
  bytes : List UInt8
  short : bytes.length ≤ 91
  no_zero : (0 : UInt8) ∉ bytes

/-! ## The blocks

A store outside an array is undefined in C, so the model does not say what comes after one:
a block records `none` for the array and ends `main`. A block that stays inside records the
array, compares it, and ends `main` if it finds one of its commands.
-/

/-- What a part of `main` does: the arrays its copies leave, `none` for a copy that
writes outside, the commands it runs, and whether `main` ends there. -/
structure BlockRun where
  arrays : List (Option (List UInt8))
  system : List (List UInt8)
  ends : Bool
  deriving Repr, DecidableEq

/-- A part that does nothing, and after which `main` goes on. -/
def BlockRun.skip : BlockRun := ⟨[], [], false⟩

/-- One part and then the rest of `main`, unless the part has ended it. -/
def BlockRun.next (r rest : BlockRun) : BlockRun :=
  if r.ends then r else ⟨r.arrays ++ rest.arrays, r.system ++ rest.system, rest.ends⟩

/-- An array behind its copy, which ends `main` where the copy did not fit. -/
def BlockRun.copied (array : Option (List UInt8)) : BlockRun := ⟨[array], [], array.isNone⟩

/-- A block: up to the first `c`, `count` characters go into `temp[size]`, and if they
are one of the commands `act` follows. -/
def prefix_block (szCmd : List UInt8) (c : UInt8) (size : ℕ) (count : ℕ → ℕ)
    (cmds : List (List UInt8)) (act : BlockRun) : BlockRun :=
  match strchr szCmd c with
  | none => .skip
  | some index =>
    match copy_chars szCmd 0 (count index) 0 (List.replicate size 0) with
    | none => .copied none
    | some temp => (BlockRun.copied (some temp)).next (if cstr temp ∈ cmds then act else .skip)

/-- The first block: `i < index - 1` characters before the first `>`. -/
def redirect_block (szCmd : List UInt8) : BlockRun :=
  prefix_block szCmd 0x3E 20 (fun index => index - 1) [cmd1, cmd2] ⟨[], [cstr szCmd], true⟩

/-- The second block: `i < index + 1` characters to the first `f`. -/
def copy_block (szCmd : List UInt8) : BlockRun :=
  prefix_block szCmd 0x66 20 (fun index => index + 1) [cmd8] ⟨[], [cstr szCmd], true⟩

/-- The command without its quotes, and on with the next block. -/
def unquote (szCmd : List UInt8) : BlockRun :=
  let length := strlen szCmd
  match copy_chars szCmd 1 (length - 2) 0 (List.replicate 260 0) with
  | none => .copied none
  | some szCmd_temp => (BlockRun.copied (some szCmd_temp)).next ⟨[], [cstr szCmd_temp], false⟩

/-- The third block: `i < index` characters before the first blank. -/
def raw_sender_block (szCmd : List UInt8) : BlockRun :=
  prefix_block szCmd 0x20 30 (fun index => index) [cmd15, cmd16] (unquote szCmd)

/-- The fourth block: `i < index + 1` characters to the first `t`. -/
def bt_block (szCmd : List UInt8) : BlockRun :=
  prefix_block szCmd 0x74 30 (fun index => index + 1) [cmd17] ⟨[], [cstr szCmd], false⟩

/-- `main` on the value of `persist.asuslog.logcmd`, without what it does for the
commands it knows whole. -/
def logcommand_main (value : PropertyValue) : BlockRun :=
  let szCmd := hold 260 value.bytes
  if cstr szCmd ∈ allowed then ⟨[], [], true⟩
  else
    (redirect_block szCmd).next ((copy_block szCmd).next
      ((raw_sender_block szCmd).next (bt_block szCmd)))

/-- No copy writes outside its array, and each leaves a terminating zero. -/
def BlockRun.Stays (r : BlockRun) : Prop :=
  ∀ array ∈ r.arrays, ∃ temp, array = some temp ∧ (0 : UInt8) ∈ temp

/-! ## Where the characters stand

Two questions about a block: does its copy stay inside, and does it end `main`. Both have
answers on the value alone, where the first such character stands and what stands before it.
They are proved once, for any block, character, size and count.
-/

/-- The first `c`, if there is one, stands before `n`. -/
def PropertyValue.Before (value : PropertyValue) (c : UInt8) (n : ℕ) : Prop :=
  ∀ index, value.bytes.idxOf? c = some index → index < n

/-- The value has a `c`, and the characters up to it are one of the commands. -/
def PropertyValue.Selects (value : PropertyValue) (c : UInt8) (count : ℕ → ℕ)
    (cmds : List (List UInt8)) : Prop :=
  ∃ index, value.bytes.idxOf? c = some index ∧ value.bytes.take (count index) ∈ cmds

theorem stays_skip : BlockRun.skip.Stays := by
  intro array h
  exact absurd h List.not_mem_nil

theorem stays_copied_iff (array : Option (List UInt8)) :
    (BlockRun.copied array).Stays ↔ ∃ temp, array = some temp ∧ (0 : UInt8) ∈ temp := by
  rw [BlockRun.Stays, BlockRun.copied, List.forall_mem_singleton]

/-- A sequence stays in its arrays if its first part does, and the rest does where it is reached.
-/
theorem stays_next_iff (r rest : BlockRun) :
    (r.next rest).Stays ↔ r.Stays ∧ (r.ends = false → rest.Stays) := by
  rw [BlockRun.next]
  cases h : r.ends with
  | false => simp only [BlockRun.Stays, List.forall_mem_append, Bool.false_eq_true, if_false,
      forall_const]
  | true => simp only [if_true, Bool.true_eq_false, false_implies, and_true]

theorem ends_next (r rest : BlockRun) (h : r.ends = false) : (r.next rest).ends = rest.ends := by
  rw [BlockRun.next, h]
  rfl

section Block

variable {value : PropertyValue} {c : UInt8} {size : ℕ} {count : ℕ → ℕ}
  {cmds : List (List UInt8)} {act : BlockRun}

theorem cstr_szCmd (value : PropertyValue) : cstr (hold 260 value.bytes) = value.bytes :=
  cstr_hold value.no_zero

theorem length_szCmd (value : PropertyValue) : (hold 260 value.bytes).length = 260 :=
  length_hold (value.short.trans (by decide))

/-- The characters of the value, as a copy takes them out of `szCmd`. -/
theorem take_szCmd (value : PropertyValue) {i n : ℕ} (h : i + n ≤ value.bytes.length) :
    ((hold 260 value.bytes).drop i).take n = (value.bytes.drop i).take n := by
  rw [hold, List.drop_append_of_le_length (by omega),
    List.take_append_of_le_length (by rw [List.length_drop]; omega)]

/-- A block whose character does not occur does nothing. -/
theorem prefix_block_none (h : value.bytes.idxOf? c = none) :
    prefix_block (hold 260 value.bytes) c size count cmds act = .skip := by
  rw [prefix_block, strchr, cstr_szCmd, h]

/-- A block whose copy is too long writes outside its array, and the model ends `main` there. -/
theorem prefix_block_outside {index : ℕ} (h : value.bytes.idxOf? c = some index)
    (hsize : size < count index) :
    prefix_block (hold 260 value.bytes) c size count cmds act = .copied none := by
  have hlen : (List.replicate size (0 : UInt8)).length < 0 + count index := by
    rw [List.length_replicate]
    omega
  rw [prefix_block, strchr, cstr_szCmd, h]
  dsimp only
  rw [copy_chars_outside _ hlen (Nat.zero_le _)]

/-- A block whose copy fits has the characters in its array and compares them. -/
theorem prefix_block_inside (hcount : ∀ n, count n ≤ n + 1) {index : ℕ}
    (h : value.bytes.idxOf? c = some index) (hsize : count index ≤ size) :
    prefix_block (hold 260 value.bytes) c size count cmds act
      = (BlockRun.copied (some (hold size (value.bytes.take (count index))))).next
          (if value.bytes.take (count index) ∈ cmds then act else .skip) := by
  have hindex : index < value.bytes.length := (List.idxOf?_eq_some_iff.mp h).1
  have hle := hcount index
  have hshort := value.short
  have hcopy := @copy_chars_hold size (hold 260 value.bytes) (count index) 0 []
    (by rw [length_szCmd]; omega) (by rw [List.length_nil]; omega)
  rw [take_szCmd value (by omega), List.drop_zero, List.nil_append] at hcopy
  have hprefix : (0 : UInt8) ∉ value.bytes.take (count index) :=
    fun hm => value.no_zero (List.mem_of_mem_take hm)
  have hempty : hold size [] = List.replicate size 0 := rfl
  rw [hempty, List.length_nil] at hcopy
  rw [prefix_block, strchr, cstr_szCmd, h]
  dsimp only
  rw [hcopy]
  dsimp only
  rw [cstr_hold hprefix]

/-- **A block stays in its array exactly when its character comes early.** One statement for all
four of them, with the size of the array and the number of characters as parameters. -/
theorem prefix_block_stays_iff (hcount : ∀ n, count n ≤ n + 1) (hact : act.Stays) :
    (prefix_block (hold 260 value.bytes) c size count cmds act).Stays
      ↔ ∀ index, value.bytes.idxOf? c = some index → count index < size := by
  cases h : value.bytes.idxOf? c with
  | none =>
    rw [prefix_block_none h]
    exact iff_of_true stays_skip fun index hindex => by cases hindex
  | some index =>
    simp only [Option.some.injEq, forall_eq']
    rcases Nat.lt_or_ge size (count index) with hout | hin
    · rw [prefix_block_outside h hout, stays_copied_iff]
      refine iff_of_false ?_ (by omega)
      rintro ⟨temp, htemp, -⟩
      cases htemp
    · have hlen : (value.bytes.take (count index)).length = count index := by
        have hindex : index < value.bytes.length := (List.idxOf?_eq_some_iff.mp h).1
        have hle := hcount index
        rw [List.length_take]
        omega
      have hprefix : (0 : UInt8) ∉ value.bytes.take (count index) :=
        fun hm => value.no_zero (List.mem_of_mem_take hm)
      have hrest : (if value.bytes.take (count index) ∈ cmds then act else .skip).Stays := by
        split_ifs
        · exact hact
        · exact stays_skip
      rw [prefix_block_inside hcount h hin, stays_next_iff, and_iff_left fun _ => hrest,
        stays_copied_iff]
      simp only [Option.some.injEq, exists_eq_left', zero_mem_hold hprefix, hlen]

/-- A block that stays ends `main` where it finds one of its commands. -/
theorem prefix_block_ends_iff (hcount : ∀ n, count n ≤ n + 1)
    (hbefore : ∀ index, value.bytes.idxOf? c = some index → count index < size) :
    (prefix_block (hold 260 value.bytes) c size count cmds act).ends = true
      ↔ value.Selects c count cmds ∧ act.ends = true := by
  cases h : value.bytes.idxOf? c with
  | none =>
    rw [prefix_block_none h]
    refine iff_of_false (by decide) ?_
    rintro ⟨⟨index, hindex, -⟩, -⟩
    rw [h] at hindex
    cases hindex
  | some index =>
    rw [prefix_block_inside hcount h (hbefore index h).le, ends_next _ _ rfl,
      PropertyValue.Selects, h]
    simp only [Option.some.injEq, exists_eq_left']
    split_ifs with hcmd
    · rw [and_iff_right hcmd]
    · exact iff_of_false (by decide) fun hand => hcmd hand.1

end Block

/-! ## The four blocks

The four blocks of the source are instances of one lemma each. The third never ends `main`,
so the conditions of the later blocks are only asked for where none of the earlier ones has
ended it, and the theorem has the same shape.
-/

/-- The copy without the quotes is as short as the value. -/
theorem unquote_eq (value : PropertyValue) :
    unquote (hold 260 value.bytes)
      = (BlockRun.copied
          (some (hold 260 ((value.bytes.drop 1).take (value.bytes.length - 2))))).next
          ⟨[], [cstr (hold 260 ((value.bytes.drop 1).take (value.bytes.length - 2)))], false⟩ := by
  have hshort := value.short
  have hempty : hold 260 [] = List.replicate 260 0 := rfl
  have hcopy := @copy_chars_hold 260 (hold 260 value.bytes) (value.bytes.length - 2) 1 []
    (by rw [length_szCmd]; omega) (by rw [List.length_nil]; omega)
  have htake : ((hold 260 value.bytes).drop 1).take (value.bytes.length - 2)
      = (value.bytes.drop 1).take (value.bytes.length - 2) := by
    rcases Nat.lt_or_ge value.bytes.length 2 with hlt | hge
    · rw [Nat.sub_eq_zero_of_le hlt.le, List.take_zero, List.take_zero]
    · exact take_szCmd value (by omega)
  rw [htake, List.nil_append, hempty, List.length_nil] at hcopy
  rw [unquote, strlen_hold value.no_zero, hcopy]

theorem unquote_stays (value : PropertyValue) : (unquote (hold 260 value.bytes)).Stays := by
  have hno : (0 : UInt8) ∉ (value.bytes.drop 1).take (value.bytes.length - 2) :=
    fun hm => value.no_zero (List.mem_of_mem_drop (List.mem_of_mem_take hm))
  have hshort := value.short
  rw [unquote_eq, stays_next_iff, stays_copied_iff]
  refine ⟨⟨_, rfl, ?_⟩, fun _ _ h => absurd h List.not_mem_nil⟩
  rw [zero_mem_hold hno, List.length_take]
  omega

theorem unquote_ends (value : PropertyValue) :
    (unquote (hold 260 value.bytes)).ends = false := by
  rw [unquote_eq, ends_next _ _ rfl]

section Positions

variable (value : PropertyValue)

/-- A part of `main` that copies nothing. -/
theorem stays_no_copy (commands : List (List UInt8)) (ends : Bool) :
    (BlockRun.mk [] commands ends).Stays :=
  fun _ h => absurd h List.not_mem_nil

theorem redirect_stays_iff :
    (redirect_block (hold 260 value.bytes)).Stays ↔ value.Before 0x3E 21 := by
  rw [redirect_block, prefix_block_stays_iff (fun n => by omega) (stays_no_copy _ _)]
  exact forall₂_congr fun index _ => by omega

theorem copy_stays_iff :
    (copy_block (hold 260 value.bytes)).Stays ↔ value.Before 0x66 19 := by
  rw [copy_block, prefix_block_stays_iff (fun n => le_rfl) (stays_no_copy _ _)]
  exact forall₂_congr fun index _ => by omega

theorem raw_sender_stays_iff :
    (raw_sender_block (hold 260 value.bytes)).Stays ↔ value.Before 0x20 30 := by
  rw [raw_sender_block, prefix_block_stays_iff (fun n => Nat.le_succ n) (unquote_stays value)]
  rfl

theorem bt_stays_iff :
    (bt_block (hold 260 value.bytes)).Stays ↔ value.Before 0x74 29 := by
  rw [bt_block, prefix_block_stays_iff (fun n => le_rfl) (stays_no_copy _ _)]
  exact forall₂_congr fun index _ => by omega

variable {value}

theorem redirect_ends_iff (h : value.Before 0x3E 21) :
    (redirect_block (hold 260 value.bytes)).ends = true
      ↔ value.Selects 0x3E (fun index => index - 1) [cmd1, cmd2] := by
  have hbefore : ∀ index, value.bytes.idxOf? 0x3E = some index → index - 1 < 20 := by
    intro index hindex
    have hlt := h index hindex
    omega
  rw [redirect_block, prefix_block_ends_iff (fun n => by omega) hbefore, and_iff_left rfl]

theorem copy_ends_iff (h : value.Before 0x66 19) :
    (copy_block (hold 260 value.bytes)).ends = true
      ↔ value.Selects 0x66 (fun index => index + 1) [cmd8] := by
  have hbefore : ∀ index, value.bytes.idxOf? 0x66 = some index → index + 1 < 20 := by
    intro index hindex
    have hlt := h index hindex
    omega
  rw [copy_block, prefix_block_ends_iff (fun n => le_rfl) hbefore, and_iff_left rfl]

/-- The third block goes on to the fourth in any case. -/
theorem raw_sender_ends (h : value.Before 0x20 30) :
    (raw_sender_block (hold 260 value.bytes)).ends = false := by
  rw [raw_sender_block, ← Bool.not_eq_true, prefix_block_ends_iff (fun n => Nat.le_succ n) h,
    unquote_ends]
  exact fun hand => absurd hand.2 (by decide)

end Positions

/-- **`main` stays in its arrays exactly for a known command, and where every block that is
reached finds its character early.** For every value that a property can have. -/
theorem logcommand_stays_iff (value : PropertyValue) :
    (logcommand_main value).Stays ↔
      value.bytes ∈ allowed ∨
        value.Before 0x3E 21 ∧
          (value.Selects 0x3E (fun index => index - 1) [cmd1, cmd2] ∨
            value.Before 0x66 19 ∧
              (value.Selects 0x66 (fun index => index + 1) [cmd8] ∨
                value.Before 0x20 30 ∧ value.Before 0x74 29)) := by
  rw [logcommand_main, cstr_szCmd]
  split_ifs with hallowed
  · exact iff_of_true (stays_no_copy _ _) (Or.inl hallowed)
  · rw [or_iff_right hallowed, stays_next_iff, redirect_stays_iff]
    -- Each block is looked at where the ones before it stay and go on.
    refine and_congr_right fun hredirect => ?_
    rw [← Bool.not_eq_true, redirect_ends_iff hredirect, ← or_iff_not_imp_left, stays_next_iff,
      copy_stays_iff]
    refine or_congr Iff.rfl (and_congr_right fun hcopy => ?_)
    rw [← Bool.not_eq_true, copy_ends_iff hcopy, ← or_iff_not_imp_left, stays_next_iff,
      raw_sender_stays_iff]
    refine or_congr Iff.rfl (and_congr_right fun hraw => ?_)
    rw [imp_iff_right (raw_sender_ends hraw), bt_stays_iff]

/-- The command that the battery page writes for its level 12. -/
def gauge_level_12 : PropertyValue where
  bytes := literal "echo 12 > sys/module/ug31xx_battery/parameters/op_options"
  short := by decide
  no_zero := by decide

/-- The command that the battery page writes for its level 0. -/
def gauge_level_0 : PropertyValue where
  bytes := literal "echo 0 > sys/module/ug31xx_battery/parameters/op_options"
  short := by decide
  no_zero := by decide

/-- The first `t` is the one of `battery`: 31 characters go into `temp[30]`, or the 30
that leave no room for a terminator. -/
theorem gauge_level_leaves :
    gauge_level_12.bytes.idxOf? 0x74 = some 30 ∧ none ∈ (logcommand_main gauge_level_12).arrays ∧
      ¬ (logcommand_main gauge_level_12).Stays ∧
      gauge_level_0.bytes.idxOf? 0x74 = some 29 ∧ ¬ (logcommand_main gauge_level_0).Stays := by
  have houtside : none ∈ (logcommand_main gauge_level_12).arrays := by decide +kernel
  have hfull : some (gauge_level_0.bytes.take 30) ∈ (logcommand_main gauge_level_0).arrays := by
    decide +kernel
  refine ⟨by decide +kernel, houtside, fun h => ?_, by decide +kernel, fun h => ?_⟩
  · obtain ⟨temp, htemp, -⟩ := h _ houtside
    cases htemp
  · obtain ⟨temp, htemp, hzero⟩ := h _ hfull
    rw [← Option.some.inj htemp] at hzero
    exact gauge_level_0.no_zero (List.mem_of_mem_take hzero)

end AndroidTools.Logtool
