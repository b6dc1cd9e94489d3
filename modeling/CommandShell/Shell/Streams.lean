import CommandShell.Fault
import CommandShell.Text.Utf8

/-!
# Streams

Commands write to an output and an error channel. What they write is logged in the order in which
they write it. Each channel may have room for so many bytes only.

- `Streams.write`: as many bytes as there is room for are written; when some are left over, the
  write fails.
- `Streams.bytesOn`, `Streams.allBytes`: the bytes of one channel, and those of both as they came.
- `write_unlimited`: a channel without a limit takes everything.
-/

namespace CommandShell

/-- Where bytes can be written. -/
inductive Channel
  /-- The channel for output. -/
  | out
  /-- The channel for faults. -/
  | err
  deriving DecidableEq, Repr

/-- The streams that commands write to. -/
structure Streams where
  /-- What was written, in order. -/
  log : List (Channel × Bytes)
  /-- The number of bytes there is room for on each channel; `none` stands for no limit. -/
  room : Channel → Option Nat

namespace Streams

/-- Streams to which nothing has been written, with room for so many bytes. -/
def withRoom (out err : Option Nat) : Streams where
  log := []
  room
    | .out => out
    | .err => err

/-- Streams that take everything, to which nothing has been written. -/
def unlimited : Streams := withRoom none none

/-! ## Writing -/

/-- The part of some bytes for which there is room. -/
def fitting (room : Option Nat) (bytes : Bytes) : Bytes :=
  match room with
  | none => bytes
  | some limit => bytes.take limit

/-- The room that is left after some bytes were written. -/
def left (room : Option Nat) (written : Bytes) : Option Nat :=
  room.map (· - written.length)

/-- Writes bytes to a channel as far as there is room. -/
def write (s : Streams) (channel : Channel) (bytes : Bytes) : Except StreamFault Unit × Streams :=
  let written := fitting (s.room channel) bytes
  (if written.length < bytes.length then .error .full else .ok (),
    { log := s.log ++ [(channel, written)]
      room := fun c => if c = channel then left (s.room c) written else s.room c })

/-- A channel without a limit takes everything. -/
theorem write_unlimited {s : Streams} {channel : Channel} (h : s.room channel = none)
    (bytes : Bytes) :
    s.write channel bytes = (.ok (), { s with log := s.log ++ [(channel, bytes)] }) := by
  have hroom : (fun c => if c = channel then left (s.room c) bytes else s.room c) = s.room := by
    funext c
    by_cases hc : c = channel
    · simp [hc, h, left]
    · simp [hc]
  simp [write, fitting, h, hroom]

/-! ## What was written -/

/-- The bytes of a channel. -/
def bytesOn (s : Streams) (channel : Channel) : Bytes :=
  s.log.flatMap fun (c, bytes) => if c = channel then bytes else []

/-- The bytes of both channels, in the order in which they came. -/
def allBytes (s : Streams) : Bytes :=
  s.log.flatMap Prod.snd

/-- A write adds to its channel what fits. -/
@[simp]
theorem bytesOn_write (s : Streams) (channel other : Channel) (bytes : Bytes) :
    (s.write channel bytes).2.bytesOn other =
      s.bytesOn other ++ if channel = other then fitting (s.room channel) bytes else [] := by
  simp [write, bytesOn]

/-- A write adds what fits to the bytes of both channels. -/
@[simp]
theorem allBytes_write (s : Streams) (channel : Channel) (bytes : Bytes) :
    (s.write channel bytes).2.allBytes = s.allBytes ++ fitting (s.room channel) bytes := by
  simp [write, allBytes]

end Streams

end CommandShell
