/-!
What the machine allows that a server runs on. Values may only be nested so deep,
and how deep depends on what is done with them. Once a session has failed, its
jobs are cut off, but not at once.
-/
namespace RenameServer

structure Host where
  /-- How deep a value may be nested that is read. -/
  reading : Nat
  /-- How deep a message from the client may be nested to be logged. -/
  noting : Nat
  /-- How deep a message to the client may be nested to be logged. -/
  logging : Nat
  /-- How deep a message to the client may be nested to be sent. -/
  writing : Nat
  /-- Rounds that jobs still get after the session has failed. -/
  grace : Nat
  /-- Rounds until a session that waits for its jobs learns that one has failed. -/
  notice : Nat
  deriving Repr, DecidableEq

end RenameServer
