/-! The errors of the storage layer (`error.rs`).  Times are counted in nanoseconds. -/

namespace Dctl.Store

/-- The kinds of I/O errors that some code tells apart. -/
inductive ErrorKind where
  | brokenPipe | timedOut | connectionRefused | connectionAborted | connectionReset
  | hostUnreachable | networkUnreachable | networkDown | wouldBlock | interrupted | unexpectedEof
  | notFound | permissionDenied | other
  deriving DecidableEq, Repr

structure IoError where
  kind : ErrorKind
  rawOsError : Option Int
  deriving DecidableEq, Repr

inductive StoreError where
  | notFound (key : String)
  | bucketNotFound (bucket : String)
  | checksumMismatch (expected actual : String)
  | shortWrite (expected actual : Nat)
  | invalidKey (message : String)
  | rangeOutOfBounds (size : Nat)
  | io (e : IoError)
  | backend (message : String)
  | rootChanged (root detail : String)
  | provider (backend : String) (status : Nat) (code : String) (retryAfterSecs : Option Nat)
  | transport (backend detail : String)
  | refused (backend path detail : String)
  | runDeadline (limit : Nat)
  | stalled (attempts idle : Nat)
  | retried (attempts : Nat) (source : StoreError)
  deriving DecidableEq, Repr

end Dctl.Store
