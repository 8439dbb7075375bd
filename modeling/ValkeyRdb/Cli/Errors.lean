import ValkeyRdb.Lib.StateAction
import ValkeyRdb.Lib.Text
import ValkeyRdb.Reader.Iterator

/-!
# Errors and inputs of the commands (cli_error.rs, error.rs, io.rs:26-104)
-/

namespace ValkeyRdb.Cli

/-- What an I/O error says of itself. -/
structure IoError where
  kind : String
  text : String
  deriving DecidableEq

/-- error.rs:5; `ε` are the errors of Arrow and Parquet. -/
inductive ArrowConvertError (ε : Type) where
  | parser (f : Fault)
  | arrow (e : ε)
  | parquet (e : ε)
  | io (e : IoError)

/-- cli_error.rs:17 -/
inductive CliError (ε : Type) where
  | usage (message : String)
  | io (e : IoError)
  | corrupt (e : RdbError)
  | validationFailed (message : String)
  | other (e : ArrowConvertError ε)

/-- cli_error.rs:50 -/
def CliError.exitCode {ε : Type} : CliError ε → Nat
  | .usage _ => 2
  | .io _ => 3
  | .corrupt _ => 4
  | .validationFailed _ => 5
  | .other _ => 1

/-- How a command can fail: with an error, a panic, or by never returning. A panic unwinds
out of `main`. -/
inductive Failure (ε : Type) where
  | error (e : CliError ε)
  | panic
  | diverge

/-- `From<RdbError>` (cli_error.rs:107). -/
def Failure.ofFault {ε : Type} : Fault → Failure ε
  | .error e => .error (.corrupt e)
  | .panic => .panic
  | .diverge => .diverge

/-- `From<ArrowConvertError>` (cli_error.rs:113): what the parser reports is corruption on
this path too. -/
def Failure.ofConvert {ε : Type} : ArrowConvertError ε → Failure ε
  | .parser f => .ofFault f
  | .io e => .error (.io e)
  | .arrow e => .error (.other (.arrow e))
  | .parquet e => .error (.other (.parquet e))

/-- The exit status of a Rust program whose main thread panics. -/
def panicStatus : Nat := 101

/-- `main` (main.rs:14): the exit status, if the process ends. -/
def exitStatus {ε α : Type} : Except (Failure ε) α → Option Nat
  | .ok _ => some 0
  | .error (.error e) => some e.exitCode
  | .error .panic => some panicStatus
  | .error .diverge => none

theorem exitCode_ne_zero {ε : Type} (e : CliError ε) : e.exitCode ≠ 0 := by
  cases e <;> simp [CliError.exitCode]

theorem exitStatus_zero {ε : Type} {result : Except (Failure ε) Unit}
    (h : exitStatus result = some 0) : result = .ok () := by
  rcases result with (e | _ | _) | ⟨⟩
  · exact absurd (Option.some.inj h) (exitCode_ne_zero e)
  · cases h
  · cases h
  · rfl

/-! ### Paths -/

def pathText (path : Bytes) : String := utf8Text (fromUtf8Lossy path)

/-- `IoContext`, as it is displayed: the path before the error (io.rs:26-47). -/
def ioContext (path : Bytes) (e : IoError) : IoError := ⟨e.kind, pathText path ++ ": " ++ e.text⟩

/-- `Path::join` with a file name. -/
def joinPath (dir name : Bytes) : Bytes :=
  if dir = [] then name else if dir.getLast? = some 47 then dir ++ name else dir ++ 47 :: name

/-! ### Inputs -/

/-- An input that was opened: the bytes that its reads return, and the error behind them, if
it is not the end. -/
structure RdbInput where
  bytes : Bytes
  failure : Option IoError

/-- What a fault on the bytes is when the source fails behind them: `read_exact` hands on
the error of the read. -/
def RdbInput.fault (source : RdbInput) : Fault → Fault
  | .error (.io .unexpectedEof) =>
    match source.failure with
    | none => .error (.io .unexpectedEof)
    | some e => .error (.io (.other e.text))
  | f => f

theorem RdbInput.fault_error (source : RdbInput) (e : RdbError) :
    ∃ e', source.fault (.error e) = .error e' := by
  unfold RdbInput.fault
  split
  · split
    · exact ⟨_, rfl⟩
    · exact ⟨_, rfl⟩
  · exact ⟨e, rfl⟩

/-- The machine a command runs on: its files are part of the state `ω`. -/
structure System (ω : Type) where
  stdin : ω → RdbInput × ω
  openInput : Bytes → StateAction ω IoError RdbInput

section Input

variable {ω ε : Type} (sys : System ω)

/-- `open_rdb_input` (io.rs:60): "-" is the standard input. -/
def openRdbInput (path : Bytes) : StateAction ω IoError RdbInput := fun w =>
  if path = [45] then
    let (source, w') := sys.stdin w
    (.ok source, w')
  else
    match sys.openInput path w with
    | (.ok source, w') => (.ok source, w')
    | (.error e, w') => (.error (ioContext path e), w')

/-- `build_rdb_reader` (io.rs:101), with the error as `From<RdbOpenError>` classifies it: a
read that fails behind the open is corruption. -/
def buildRdbReader (path : Bytes) : StateAction ω (Failure ε) (RdbInput × RdbReader) := fun w =>
  match openRdbInput sys path w with
  | (.error e, w') => (.error (.error (.io e)), w')
  | (.ok source, w') =>
    match RdbReader.new source.bytes with
    | .ok reader => (.ok (source, reader), w')
    | .error f => (.error (.ofFault (source.fault f)), w')

end Input

end ValkeyRdb.Cli
