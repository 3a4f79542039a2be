import WordMachine.Display.Pixel

/-! The channel between a machine and its display. The machine holds the link and the display holds
the endpoint; either can be dropped, and what the other has sent by then can still be read. -/
namespace WordMachine.Display

inductive Message
  | pixel (pixel : Pixel)
  | close
  deriving DecidableEq

inductive Press
  | down (button : UInt8)
  | up (button : UInt8)
  deriving DecidableEq

structure Channel where
  messages : Array Message := #[]
  presses : Array Press := #[]
  hasLink : Bool := true
  hasEndpoint : Bool := true
  deriving DecidableEq

inductive Silence
  | empty | disconnected
  deriving DecidableEq

namespace Channel

def dropped : Channel :=
  { hasLink := false, hasEndpoint := false }

def send (message : Message) (channel : Channel) : Bool × Channel :=
  if channel.hasEndpoint then
    (true, { channel with messages := channel.messages.push message })
  else
    (false, channel)

def press (press : Press) (channel : Channel) : Bool × Channel :=
  if channel.hasLink then
    (true, { channel with presses := channel.presses.push press })
  else
    (false, channel)

def poll (channel : Channel) : List Press × Channel :=
  (channel.presses.toList, { channel with presses := #[] })

/-- Takes the next message. Queued messages come before the news that the link is gone. -/
def receive (channel : Channel) : Except Silence Message × Channel :=
  match channel.messages[0]? with
  | some message => (.ok message, { channel with messages := channel.messages.extract 1 })
  | none => (.error (if channel.hasLink then .empty else .disconnected), channel)

def drain (channel : Channel) : List Message × Channel :=
  (channel.messages.toList, { channel with messages := #[] })

def dropLink (channel : Channel) : Channel :=
  { channel with hasLink := false, presses := #[] }

/-- Drops the endpoint, and with it the messages that nobody can read any more. -/
def dropEndpoint (channel : Channel) : Channel :=
  { channel with hasEndpoint := false, messages := #[] }

end Channel

end WordMachine.Display
