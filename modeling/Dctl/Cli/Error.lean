import Mathlib.Tactic.Common

/-! The exit codes of the program and the errors a command reports (`exit.rs`, `error.rs`). -/

namespace Dctl.Cli

inductive ExitCode where
  | success
  | usage
  | uncategorised
  | dirNotFound
  | fileNotFound
  | temporaryError
  | partialFailure
  | fatalError
  | transferLimitExceeded
  | noFilesTransferred
  | durationLimitExceeded
  | checksumMismatch
  | integrityFailure
  | vaultLocked
  | indexError
  | auditChainBroken
  | cancelled
  | auditHeadMismatch
  | verificationNotPossible
  | linkSilent
  deriving DecidableEq, Repr

structure CliError where
  code : ExitCode
  message : String
  hint : Option String := none
  deriving DecidableEq, Repr

namespace CliError

def withHint (e : CliError) (hint : String) : CliError := { e with hint := some hint }

def ofUsage (message : String) : CliError := ⟨.usage, message, none⟩

def ofFatal (message : String) : CliError := ⟨.fatalError, message, none⟩

end CliError

end Dctl.Cli
