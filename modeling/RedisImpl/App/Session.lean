import RedisImpl.Cmd.Dispatch
import RedisImpl.Cmd.Run

/-!
# The calls of `parse_command` on a connection

`Session.parse` is `parse_command` as the loop of a connection calls it: with the clock readings and
the outcomes of the allocations of a run. `Command.node` is the tree of a GET or SET request, and
`Session.parse_node`: on such trees the calls are the commands (`Command.exec`).
-/

namespace RedisImpl

open Node

/-- What the calls of `parse_command` on a connection read and write: the maps, and for the
`time`-th call the clock and the outcomes of the allocations. -/
structure Session where
  args : CmdParserArgs
  clock : Nat → Timespec
  realloc : Nat → Realloc
  time : Nat

/-- `parse_command`. -/
def Session.parse (lc : Libc) (node : List Node) (s : Session) :
    Except Fault (Option Bytes × Session) :=
  (parseCommand lc (s.clock s.time) (s.realloc s.time) s.args node).map fun (r, args) =>
    (r, { s with args, time := s.time + 1 })

/-- The first call after the start of the server. -/
def start : Session := ⟨initialArgs, fun _ => ⟨0, 0⟩, fun _ => .ok, 0⟩

/-- The request of a command, with the name in upper case. -/
def Command.node : Command → Node
  | get k => .array 2 [.bulk (ascii "GET"), .bulk k]
  | set c => .array (c.args.length + 1) (.bulk (ascii "SET") :: c.args)

/-- The session after a call that left `sm`. -/
def Session.after (s : Session) (sm : Store) : Session :=
  { s with args := { s.args with sm }, time := s.time + 1 }

/-- The commands with the clock readings of their calls. -/
def Session.jobs (s : Session) : List Command → List (Timespec × Command)
  | [] => []
  | cmd :: cmds => (s.clock s.time, cmd) :: ({ s with time := s.time + 1 } : Session).jobs cmds

/-- The clock readings are those of the calls to come. -/
theorem jobs_congr (cmds : List Command) {s s' : Session} (hc : s.clock = s'.clock)
    (ht : s.time = s'.time) : s.jobs cmds = s'.jobs cmds := by
  induction cmds generalizing s s' with
  | nil => rfl
  | cons cmd cmds ih =>
    have hrest := @ih { s with time := s.time + 1 } { s' with time := s'.time + 1 } hc
      (congrArg (· + 1) ht)
    have hnow : s.clock s.time = s'.clock s'.time := by rw [hc, ht]
    exact congrArg₂ (fun now js => (now, cmd) :: js) hnow hrest

namespace Session

variable {lc : Libc} {s s' : Session} {r : Option Bytes}

theorem parse_eq_ok {node : List Node} (h : s.parse lc node = .ok (r, s')) :
    ∃ args', parseCommand lc (s.clock s.time) (s.realloc s.time) s.args node = .ok (r, args') ∧
      s' = { s with args := args', time := s.time + 1 } := by
  unfold Session.parse at h
  cases hp : parseCommand lc (s.clock s.time) (s.realloc s.time) s.args node with
  | error e =>
    rw [hp] at h
    cases h
  | ok p =>
    rw [hp] at h
    cases h
    exact ⟨p.2, rfl, rfl⟩

/-- The call for a SET request. -/
theorem parse_set {size : Int} (args : List Node) :
    s.parse lc [.array size (.bulk (ascii "SET") :: args)] =
      .ok ((handleSetCmd (s.clock s.time) (s.realloc s.time) args s.args.sm).1,
        s.after (handleSetCmd (s.clock s.time) (s.realloc s.time) args s.args.sm).2) := by
  have hname : findRedisCmd lc (ascii "SET") = .set := by
    rw [findRedisCmd_eq]
    decide
  unfold Session.parse
  rw [parseCommand_eq, show firstBulk [.array size (.bulk (ascii "SET") :: args)] 0 =
    some (1, ascii "SET", args) from rfl, runAt_some, if_pos rfl, hname]
  rfl

/-- The call for a GET request. -/
theorem parse_get {size : Int} (args : List Node) :
    s.parse lc [.array size (.bulk (ascii "GET") :: args)] =
      .ok ((handleGetCmd lc (s.clock s.time) args s.args.sm).1,
        s.after (handleGetCmd lc (s.clock s.time) args s.args.sm).2) := by
  have hname : findRedisCmd lc (ascii "GET") = .get := by
    rw [findRedisCmd_eq]
    decide
  unfold Session.parse
  rw [parseCommand_eq, show firstBulk [.array size (.bulk (ascii "GET") :: args)] 0 =
    some (1, ascii "GET", args) from rfl, runAt_some, if_pos rfl, hname]
  rfl

/-- The call for a command, when its allocations succeed. -/
theorem parse_node (hra : s.realloc s.time = .ok) (cmd : Command) :
    s.parse lc [cmd.node] =
      .ok ((cmd.exec lc (s.clock s.time) s.args.sm).1,
        s.after (cmd.exec lc (s.clock s.time) s.args.sm).2) := by
  cases cmd with
  | get k => exact parse_get _
  | set c =>
    rw [Command.node, parse_set, hra]
    rfl

end Session
end RedisImpl
