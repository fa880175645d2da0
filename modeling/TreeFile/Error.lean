/-!
Failures: a code that says what kind of failure it is and, for most of them, a detail that names
what was wrong. The text shown to a user is the code's description followed by the detail.
-/

namespace TreeFile

inductive ErrorCode where
  | internal
  | busy
  | noMem
  | readOnly
  | ioErr
  /-- A page or a chain of pages breaks a rule of the file format. -/
  | corrupt
  | full
  | cantOpen
  | notADb
  | misuse
  | range
deriving DecidableEq, Repr, Inhabited

namespace ErrorCode

def number : ErrorCode → Nat
  | internal => 2
  | busy => 5
  | noMem => 7
  | readOnly => 8
  | ioErr => 10
  | corrupt => 11
  | full => 13
  | cantOpen => 14
  | misuse => 21
  | range => 25
  | notADb => 26

def description : ErrorCode → String
  | internal => "internal logic error"
  | busy => "database is locked"
  | noMem => "out of memory"
  | readOnly => "attempt to write a readonly database"
  | ioErr => "disk I/O error"
  | corrupt => "database disk image is malformed"
  | full => "database or disk is full"
  | cantOpen => "unable to open database file"
  | notADb => "file is not a database"
  | misuse => "bad parameter or other API misuse"
  | range => "column index out of range"

end ErrorCode

structure Error where
  code : ErrorCode
  detail : Option String := none
deriving DecidableEq, Repr, Inhabited

namespace Error

def message (e : Error) : String :=
  match e.detail with
  | none => e.code.description
  | some detail => e.code.description ++ ": " ++ detail

def isCorrupt (e : Error) : Bool := e.code == .corrupt

def internal (detail : String) : Error := ⟨.internal, some detail⟩
def corrupt (detail : String) : Error := ⟨.corrupt, some detail⟩
def full (detail : String) : Error := ⟨.full, some detail⟩
def notADb (detail : String) : Error := ⟨.notADb, some detail⟩
def misuse (detail : String) : Error := ⟨.misuse, some detail⟩
def range (detail : String) : Error := ⟨.range, some detail⟩

/-- Reported where an access would leave the bytes it is made in, or a size would drop below
zero. Every such access is checked, so nothing is ever clipped in silence. -/
def outOfBounds : Error := internal "access out of bounds"

end Error

/-- What the system beneath a file says about a call that failed. -/
inductive SystemFailure where
  | outOfMemory
  | notFound
  | permissionDenied
  | other
deriving DecidableEq, Repr

def SystemFailure.code : SystemFailure → ErrorCode
  | outOfMemory => .noMem
  | notFound => .cantOpen
  | permissionDenied => .cantOpen
  | other => .ioErr

def Error.ofSystem (failure : SystemFailure) (text : String) : Error :=
  ⟨failure.code, some text⟩

end TreeFile
