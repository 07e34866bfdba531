import TreeTypes.CommandLine.Run
import TreeTypes.Proofs.FileTree

/-!
# How a run ends

A generating run first reads at most two files, then makes the block, and only
then writes. Whatever fails before the block is there leaves no trace but a
line on the standard error. If there is a block, it can still fail to be
written: the path means no place for a file, or the block has no bytes because
a name in it holds a surrogate.

The two do not end alike. That a file cannot be created is noticed before
anything is changed. That a block has no bytes is noticed when the file has
been created, so a file that was there before is empty afterwards. This is the
only run that fails and changes something (`CommandLine.Ending.kept`), and it
really happens (`CommandLine.generate_empties_output`).

The six ways to end are listed once, in `CommandLine.Ends`, and everything that
is said about a run follows from the list. It is said for every terminal; of
what a terminal does only one thing matters, that a block is printed as it is
if it has no escape character.

## Main definitions

* `CommandLine.makeBlock`: the block that a run makes of the files, with its
  records.
* `CommandLine.Ends`: the ways in which a run can end.
* `CommandLine.Ending`: what a run leaves behind.

## Main results

* `Terminal.block_eq_self` — blocks that are printed as they are.
* `CommandLine.ends_generate` — a run ends in one of these ways.
* `CommandLine.ending_generate` — when it succeeds, what is written then, and
  what a failure leaves behind.
-/

namespace TreeTypes

/-- An action after one whose result and state are known. -/
theorem run_bind_of_run_eq {σ α β : Type} {action : StateM σ α} {next : α → StateM σ β} {a : α}
    {before after : σ} (h : action.run before = (a, after)) :
    (action >>= next).run before = (next a).run after := by
  rw [StateT.run_bind, h]
  rfl

namespace FileTree

variable (tree : FileTree) {after : FileTree} {path : FilePath} {bytes : List UInt8}
  {fault : FileFault}

/-- The text of a file of a tree. -/
def readText (path : FilePath) : Except FileFault Text :=
  match tree.read path with
  | .error fault => .error fault
  | .ok bytes =>
    match Utf8.decode bytes with
    | .error fault => .error (.undecodable fault)
    | .ok text => .ok text.unifyLineEnds

theorem run_read (path : FilePath) :
    (access.read path).run tree = (tree.read path, tree) := rfl

/-- Reading a text changes nothing. -/
theorem run_readText (path : FilePath) :
    (access.readText path).run tree = (tree.readText path, tree) := by
  rw [FileAccess.readText, run_bind_of_run_eq (tree.run_read path), readText]
  cases tree.read path with
  | error fault => rfl
  | ok bytes =>
      simp only
      cases Utf8.decode bytes with
      | error fault => rfl
      | ok text => rfl

variable {tree}

theorem run_create_of_ok (h : tree.write path [] = .ok after) :
    (access.create path).run tree = (.ok (), after) := by
  simp only [access, StateT.run, h]

theorem run_create_of_error (h : tree.write path [] = .error fault) :
    (access.create path).run tree = (.error fault, tree) := by
  simp only [access, StateT.run, h]

theorem run_fill_of_ok (h : tree.write path bytes = .ok after) :
    (access.fill path bytes).run tree = (.ok (), after) := by
  simp only [access, StateT.run, h]

end FileTree

/-! ## What is printed -/

/-- Without an escape character there is no escape sequence. -/
theorem Text.stripEscapes_eq_self {text : Text} (h : CodePoint.char '\x1b' ∉ text) :
    text.stripEscapes = text := by
  rw [stripEscapes]
  induction text with
  | nil => rfl
  | cons p rest ih =>
      rw [List.mem_cons, not_or] at h
      rw [stripEscapesFrom, if_neg (Ne.symm h.1)]
      exact congrArg (p :: ·) (ih h.2)

theorem Terminal.block_eq_self {t : Terminal} {text : Text}
    (h : t.isWatched = true ∨ CodePoint.char '\x1b' ∉ text) : t.block text = text := by
  rw [block]
  split
  · rfl
  · rename_i hUnwatched
    exact Text.stripEscapes_eq_self (h.resolve_left hUnwatched)

namespace CommandLine

section Runs

/-! ## The block of a run -/

/-- The settings that the files of a tree give a run. -/
def settingsFrom (tree : FileTree) : Option FilePath → Except Failure Settings
  | none => .ok {}
  | some path => Generation.settingsOfFile path (tree.readText path)

variable [Nesting]

/-- The block that a run makes of the files of a tree, with the records of making it. -/
def makeBlock (tree : FileTree) (options : Options) : Traced Text :=
  match settingsFrom tree options.settings with
  | .error failure => .fail failure
  | .ok settings => Generation.ofFile settings options.grammar (tree.readText options.grammar)

/-- The records that a run shows. -/
def shownNotes (t : Terminal) (tree : FileTree) (options : Options) : Text :=
  t.notes options.details (makeBlock tree options).log

omit [Nesting] in
theorem run_settings (tree : FileTree) (path : Option FilePath) :
    (settings FileTree.access path).run tree = (settingsFrom tree path, tree) := by
  cases path with
  | none => rfl
  | some path =>
      rw [settings, run_bind_of_run_eq (tree.run_readText path)]
      rfl

/-! ## The ways to end -/

/-- The ways in which a generating run can end, with its outcome and the files after it. -/
inductive Ends (t : Terminal) (tree : FileTree) (options : Options) : Outcome → FileTree → Prop
  /-- There is no block. -/
  | refused {failure : Failure} (hBlock : (makeBlock tree options).outcome = .error failure) :
      Ends t tree options (failed t (shownNotes t tree options) failure) tree
  /-- The block has no bytes for the standard output. -/
  | unprintable {block : Text} (hBlock : (makeBlock tree options).outcome = .ok block)
      (hOutput : options.output = none) (hBytes : Utf8.encode? block = none) :
      Ends t tree options
        { exit := 1, stderr := shownNotes t tree options, escaped := some .unencodable } tree
  | printed {block : Text} {bytes : List UInt8}
      (hBlock : (makeBlock tree options).outcome = .ok block) (hOutput : options.output = none)
      (hBytes : Utf8.encode? block = some bytes) :
      Ends t tree options
        { exit := 0, stdout := t.block block, stderr := shownNotes t tree options } tree
  /-- The file cannot be created. -/
  | unwritable {block : Text} {path : FilePath} {fault : FileFault}
      (hBlock : (makeBlock tree options).outcome = .ok block) (hOutput : options.output = some path)
      (hCreate : tree.write path [] = .error fault) :
      Ends t tree options
        (unwritten t (shownNotes t tree options) path fault) tree
  /-- The file is created, and then the block has no bytes for it. -/
  | emptied {block : Text} {path : FilePath} {after : FileTree}
      (hBlock : (makeBlock tree options).outcome = .ok block) (hOutput : options.output = some path)
      (hBytes : Utf8.encode? block = none) (hCreate : tree.write path [] = .ok after) :
      Ends t tree options
        { exit := 1, stderr := shownNotes t tree options, escaped := some .unencodable } after
  | written {block : Text} {path : FilePath} {bytes : List UInt8} {after : FileTree}
      (hBlock : (makeBlock tree options).outcome = .ok block) (hOutput : options.output = some path)
      (hBytes : Utf8.encode? block = some bytes) (hWrite : tree.write path bytes = .ok after) :
      Ends t tree options { exit := 0, stderr := shownNotes t tree options } after

variable {t : Terminal} {tree after : FileTree} {options : Options} {outcome : Outcome}

/-- A run that comes to write a block to a file. -/
theorem ends_writeBlock {block : Text} {path : FilePath}
    (hBlock : (makeBlock tree options).outcome = .ok block) (hOutput : options.output = some path) :
    Ends t tree options
      ((writeBlock t FileTree.access path (shownNotes t tree options) block).run tree).1
      ((writeBlock t FileTree.access path (shownNotes t tree options) block).run tree).2 := by
  rw [writeBlock]
  cases hCreate : tree.write path [] with
  | error fault =>
      rw [run_bind_of_run_eq (FileTree.run_create_of_error hCreate)]
      exact .unwritable hBlock hOutput hCreate
  | ok opened =>
      rw [run_bind_of_run_eq (FileTree.run_create_of_ok hCreate)]
      cases hBytes : Utf8.encode? block with
      | none => exact .emptied hBlock hOutput hBytes hCreate
      | some bytes =>
          have hWritable : tree.Writable path := FileTree.exists_write_iff.1 ⟨opened, hCreate⟩
          obtain ⟨after, hWrite⟩ : ∃ after, tree.write path bytes = .ok after :=
            FileTree.exists_write_iff.2 hWritable
          have hFill : opened.write path bytes = .ok after := by
            rw [FileTree.write_write hCreate, hWrite]
          simp only
          rw [run_bind_of_run_eq (FileTree.run_fill_of_ok hFill)]
          exact .written hBlock hOutput hBytes hWrite

/-- A run ends in one of the listed ways. -/
theorem ends_generate (t : Terminal) (tree : FileTree) (options : Options) :
    Ends t tree options ((generate t FileTree.access options).run tree).1
      ((generate t FileTree.access options).run tree).2 := by
  rw [generate, run_bind_of_run_eq (run_settings tree options.settings)]
  cases hSettings : settingsFrom tree options.settings with
  | error failure =>
      have hMade : makeBlock tree options = .fail failure := by
        rw [makeBlock, hSettings]
      have hNotes : shownNotes t tree options = [] := by
        rw [shownNotes, hMade]
        rfl
      have hEnds := Ends.refused (t := t) (congrArg Traced.outcome hMade)
      rw [hNotes] at hEnds
      exact hEnds
  | ok settings =>
      have hMade : makeBlock tree options =
          Generation.ofFile settings options.grammar (tree.readText options.grammar) := by
        rw [makeBlock, hSettings]
      simp only
      rw [run_bind_of_run_eq (tree.run_readText options.grammar), ← hMade]
      cases hBlock : (makeBlock tree options).outcome with
      | error failure => exact .refused hBlock
      | ok block =>
          cases hOutput : options.output with
          | some path => exact ends_writeBlock hBlock hOutput
          | none =>
              show Ends t tree options (printBlock t (shownNotes t tree options) block) tree
              rw [printBlock]
              cases hBytes : Utf8.encode? block with
              | none => exact .unprintable hBlock hOutput hBytes
              | some bytes => exact .printed hBlock hOutput hBytes

/-! ## What is left behind -/

/-- The run comes to write a block without bytes to a file that can be written. -/
def Empties (tree : FileTree) (options : Options) : Prop :=
  ∃ block path, (makeBlock tree options).outcome = .ok block ∧ Utf8.encode? block = none ∧
    options.output = some path ∧ tree.Writable path

/-- What a generating run on the files of a tree leaves behind. -/
structure Ending (t : Terminal) (tree : FileTree) (options : Options) (outcome : Outcome)
    (after : FileTree) : Prop where
  /-- There is a block, it has bytes, and there is a place for them. -/
  succeeds_iff : outcome.exit = 0 ↔ ∃ block bytes, (makeBlock tree options).outcome = .ok block ∧
    Utf8.encode? block = some bytes ∧ ∀ path, options.output = some path → tree.Writable path
  /-- Without an output the block is printed, and no file changes. It is printed as it is, unless
  nobody watches and it has an escape character. -/
  printed : outcome.exit = 0 → options.output = none → after = tree ∧
    ∃ block, (makeBlock tree options).outcome = .ok block ∧ outcome.stdout = t.block block ∧
      (t.isWatched = true ∨ CodePoint.char '\x1b' ∉ block → outcome.stdout = block)
  /-- With an output the block is the content of that file, and no other one changes. -/
  written : outcome.exit = 0 → ∀ path, options.output = some path → outcome.stdout = [] ∧
    ∃ block bytes, (makeBlock tree options).outcome = .ok block ∧
      Utf8.encode? block = some bytes ∧ tree.IsRewritten path bytes after
  fails : outcome.exit ≠ 0 → outcome.exit = 1 ∧ outcome.stdout = []
  /-- After the records, a diagnostic is all that is shown. -/
  diagnosed : ∀ d, (makeBlock tree options).outcome = .error (.diagnosed d) →
    outcome = { exit := 1, stderr := shownNotes t tree options ++ t.diagnostic (diagnosticLine d) }
  kept : outcome.exit ≠ 0 → ¬ Empties tree options → after = tree
  emptied : Empties tree options →
    outcome.exit = 1 ∧ ∃ path, options.output = some path ∧ tree.IsRewritten path [] after

omit [Nesting] in
theorem failed_exit (notes : Text) (failure : Failure) : (failed t notes failure).exit = 1 := by
  cases failure <;> rfl

omit [Nesting] in
theorem failed_stdout (notes : Text) (failure : Failure) :
    (failed t notes failure).stdout = [] := by
  cases failure <;> rfl

namespace Ends

/-- A run succeeds if it has something to write that can be written where it should. -/
theorem succeeds_iff (h : Ends t tree options outcome after) :
    outcome.exit = 0 ↔ ∃ block bytes, (makeBlock tree options).outcome = .ok block ∧
      Utf8.encode? block = some bytes ∧
      ∀ path, options.output = some path → tree.Writable path := by
  cases h with
  | refused hBlock => simp [failed_exit, hBlock]
  | unprintable hBlock hOutput hBytes => simp [hBlock, hBytes]
  | printed hBlock hOutput hBytes => simp [hBlock, hOutput, hBytes]
  | unwritable hBlock hOutput hCreate =>
      have hNot := FileTree.not_writable_of_write hCreate
      simp [unwritten, hOutput, hNot]
  | emptied hBlock hOutput hBytes hCreate => simp [hBlock, hBytes]
  | written hBlock hOutput hBytes hWrite =>
      have hWritable := FileTree.exists_write_iff.1 ⟨_, hWrite⟩
      simp [hBlock, hOutput, hBytes, hWritable]

/-- A run that succeeds prints its block or writes it to the output. -/
theorem of_exit_eq_zero (h : Ends t tree options outcome after) (hExit : outcome.exit = 0) :
    ∃ block bytes, (makeBlock tree options).outcome = .ok block ∧
      Utf8.encode? block = some bytes ∧
      (options.output = none ∧ outcome.stdout = t.block block ∧ after = tree ∨
        ∃ path, options.output = some path ∧ outcome.stdout = [] ∧
          tree.write path bytes = .ok after) := by
  cases h with
  | refused =>
      rw [failed_exit] at hExit
      cases hExit
  | unprintable => cases hExit
  | printed hBlock hOutput hBytes =>
      exact ⟨_, _, hBlock, hBytes, Or.inl ⟨hOutput, rfl, rfl⟩⟩
  | unwritable => cases hExit
  | emptied => cases hExit
  | written hBlock hOutput hBytes hWrite =>
      exact ⟨_, _, hBlock, hBytes, Or.inr ⟨_, hOutput, rfl, hWrite⟩⟩

/-- A failing run prints nothing, and changes nothing unless it empties its output. -/
theorem keeps (h : Ends t tree options outcome after) (hExit : outcome.exit ≠ 0) :
    outcome.exit = 1 ∧ outcome.stdout = [] ∧ (¬ Empties tree options → after = tree) := by
  cases h with
  | refused hBlock => exact ⟨failed_exit _ _, failed_stdout _ _, fun _ => rfl⟩
  | unprintable => exact ⟨rfl, rfl, fun _ => rfl⟩
  | printed => exact absurd rfl hExit
  | unwritable => exact ⟨rfl, rfl, fun _ => rfl⟩
  | emptied hBlock hOutput hBytes hCreate =>
      refine ⟨rfl, rfl, fun hNot => absurd ?_ hNot⟩
      exact ⟨_, _, hBlock, hBytes, hOutput, FileTree.exists_write_iff.1 ⟨_, hCreate⟩⟩
  | written => exact absurd rfl hExit

theorem of_diagnosed (h : Ends t tree options outcome after) {d : Diagnostic}
    (hBlock : (makeBlock tree options).outcome = .error (.diagnosed d)) :
    outcome =
      { exit := 1, stderr := shownNotes t tree options ++ t.diagnostic (diagnosticLine d) } := by
  have hNone : ∀ block, (makeBlock tree options).outcome ≠ .ok block := by
    intro block
    rw [hBlock]
    simp
  cases h with
  | refused hOther =>
      rw [hBlock, Except.error.injEq] at hOther
      subst hOther
      rfl
  | unprintable hOther => exact absurd hOther (hNone _)
  | printed hOther => exact absurd hOther (hNone _)
  | unwritable hOther => exact absurd hOther (hNone _)
  | emptied hOther => exact absurd hOther (hNone _)
  | written hOther => exact absurd hOther (hNone _)

/-- A block without bytes leaves its output empty, if there is a place for it. -/
theorem of_empties (h : Ends t tree options outcome after) (hEmpties : Empties tree options) :
    outcome.exit = 1 ∧ ∃ path, options.output = some path ∧ tree.IsRewritten path [] after := by
  obtain ⟨block, path, hBlock, hBytes, hOutput, hWritable⟩ := hEmpties
  have hSome : options.output ≠ none := by
    rw [hOutput]
    simp
  cases h with
  | refused hOther =>
      rw [hBlock] at hOther
      cases hOther
  | unprintable hOther hNone => exact absurd hNone hSome
  | printed hOther hNone => exact absurd hNone hSome
  | unwritable hOther hSame hCreate =>
      rw [hOutput, Option.some.injEq] at hSame
      subst hSame
      exact absurd hWritable (FileTree.not_writable_of_write hCreate)
  | emptied hOther hSame hNoBytes hCreate =>
      exact ⟨rfl, _, hSame, FileTree.isRewritten_of_write hCreate⟩
  | written hOther hSame hEncoded hWrite =>
      rw [hBlock, Except.ok.injEq] at hOther
      subst hOther
      rw [hBytes] at hEncoded
      cases hEncoded

end Ends

/-- A generating run succeeds exactly if it makes a block that has bytes and, if an output is given,
the output is a file or can become one. Then exactly that block is the content of the output, or it
is printed as the terminal shows it, and nothing else changes. A run that fails does so with the
code 1 and prints nothing, and of a diagnostic it shows one line. It leaves all files as they were,
except in one case: if it makes a block without bytes, and the output is a file or can become one,
that file is empty afterwards. -/
theorem ending_generate (t : Terminal) (tree : FileTree) (options : Options) :
    Ending t tree options ((generate t FileTree.access options).run tree).1
      ((generate t FileTree.access options).run tree).2 := by
  have hEnds := ends_generate t tree options
  refine
    { succeeds_iff := hEnds.succeeds_iff
      printed := ?_
      written := ?_
      fails := fun hExit => ⟨(hEnds.keeps hExit).1, (hEnds.keeps hExit).2.1⟩
      diagnosed := fun d hBlock => hEnds.of_diagnosed hBlock
      kept := fun hExit => (hEnds.keeps hExit).2.2
      emptied := hEnds.of_empties }
  · intro hExit hNone
    obtain ⟨block, bytes, hBlock, -, ⟨-, hPrinted, hAfter⟩ | ⟨path, hSome, -⟩⟩ :=
      hEnds.of_exit_eq_zero hExit
    · exact ⟨hAfter, block, hBlock, hPrinted, fun h => hPrinted.trans (Terminal.block_eq_self h)⟩
    · rw [hNone] at hSome
      cases hSome
  · intro hExit path hSome
    obtain ⟨block, bytes, hBlock, hBytes, ⟨hNone, -⟩ | ⟨other, hOther, hPrinted, hWrite⟩⟩ :=
      hEnds.of_exit_eq_zero hExit
    · rw [hSome] at hNone
      cases hNone
    · rw [hSome, Option.some.injEq] at hOther
      subst hOther
      exact ⟨hPrinted, block, bytes, hBlock, hBytes, FileTree.isRewritten_of_write hWrite⟩

end Runs

/-- The bytes of a text. -/
def bytesOf (text : Text) : List UInt8 := (Utf8.encode? text).getD []

/-- A grammar with one rule, whose name is given as it stands in the document, and the output of an
earlier run. -/
def filesWith (rule : Text) : FileTree := ⟨[
  (["grammar.json"], .file (bytesOf (Text.concat ["\x7b\"name\": \"g\", \"rules\": \x7b\"", rule,
    "\": \x7b\"type\": \"BLANK\"\x7d\x7d\x7d"]))),
  (["types.txt"], .file (bytesOf "type a = string\n;\n"))]⟩

/-- From the grammar to the output. -/
def overwriting : Options where
  grammar := .ofText "grammar.json"
  output := some (.ofText "types.txt")

/-- What it leaves behind on a plain terminal, if 254 nodes may stand inside each other. -/
def overwrite (tree : FileTree) : Outcome × FileTree :=
  let _ : Nesting := .upTo 254
  (generate (.plain []) FileTree.access overwriting).run tree

theorem ending_generate_overwriting :
    (@makeBlock (.upTo 254) (filesWith "b") overwriting).outcome = .ok "type b = string\n;\n" ∧
      (overwrite (filesWith "b")).1.exit = 0 ∧
      (overwrite (filesWith "b")).1.stdout = [] ∧
      (filesWith "b").IsRewritten (.ofText "types.txt") (bytesOf "type b = string\n;\n")
        (overwrite (filesWith "b")).2 := by
  obtain ⟨hSucceeds, -, hWritten, -, -, -, -⟩ :
      @Ending (.upTo 254) (.plain []) (filesWith "b") overwriting
        (overwrite (filesWith "b")).1 (overwrite (filesWith "b")).2 :=
    @ending_generate (.upTo 254) (.plain []) (filesWith "b") overwriting
  have hMade : (@makeBlock (.upTo 254) (filesWith "b") overwriting).outcome =
      .ok "type b = string\n;\n" := by
    decide +kernel
  have hBytes : Utf8.encode? "type b = string\n;\n" = some (bytesOf "type b = string\n;\n") := by
    decide
  have hWritable : (filesWith "b").Writable (.ofText "types.txt") :=
    ⟨["types.txt"], by decide +kernel, by decide +kernel⟩
  have hExit := hSucceeds.2 ⟨_, _, hMade, hBytes, fun path hPath =>
    Option.some.inj hPath ▸ hWritable⟩
  obtain ⟨hStdout, block, bytes, hBlock, hSame, hRewritten⟩ := hWritten hExit _ rfl
  rw [hMade, Except.ok.injEq] at hBlock
  subst hBlock
  rw [hBytes, Option.some.injEq] at hSame
  subst hSame
  exact ⟨hMade, hExit, hStdout, hRewritten⟩

/-- A rule whose name is a surrogate: the run fails, and the output of the earlier run is gone. -/
theorem generate_empties_output :
    (overwrite (filesWith "\\ud800")).1.exit = 1 ∧
      (filesWith "\\ud800").find? ["types.txt"] = some (.file (bytesOf "type a = string\n;\n")) ∧
      (overwrite (filesWith "\\ud800")).2.find? ["types.txt"] =
        some (.file []) := by
  decide +kernel

end CommandLine

end TreeTypes
