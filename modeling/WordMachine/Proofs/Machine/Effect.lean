import Mathlib.Logic.Function.Basic
import WordMachine.Proofs.Isa.Command
import WordMachine.Proofs.Machine.Flags

/-! What each command is documented to do, on a core that is seen from outside: a word for each
register and port, and data memory. -/
namespace WordMachine.Machine

open Isa (Register Command Source Condition)
open Display (Pixel)

@[ext] structure View where
  reg : Register → Word
  ram : Bank Word
  port : UInt8 → Word

def Core.view (core : Core) : View :=
  ⟨core.registers.get, core.ram, core.port⟩

/-- What a command does: control passes on with the view and perhaps a pixel to show, or the
machine is asked to halt, or there is a fault. The instruction pointer is already the next one. -/
inductive Effect
  | passes (view : View) (pixel : Option Pixel)
  | halts (view : View)
  | faults (fault : Fault) (view : View)

namespace View

def setReg (view : View) (register : Register) (value : Word) : View :=
  { view with reg := Function.update view.reg register value }

/-- A write to a register as a destination. The flags cannot be written, and the button register
keeps eight bits. -/
def assign (view : View) (register : Register) (value : Word) : View :=
  match register with
  | .flgs => view
  | .inp => view.setReg .inp (value &&& 0xff)
  | _ => view.setReg register value

def goTo (view : View) (target : Word) : View :=
  view.setReg .ip target

def next (view : View) : View :=
  view.goTo (view.reg .ip + 1)

def source (view : View) : Source → Word
  | .register rs => view.reg rs
  | .value value => value

/-- The word of data memory that an offset from the data pointer names. -/
def address (view : View) (offset : Word) : Nat :=
  (view.reg .dp + offset).toNat

def violation (view : View) (address : Nat) : Effect :=
  .faults (.memoryViolation ⟨view.ram.name, address, view.ram.cells.size⟩) view

def reading (view : View) (address : Nat) (rest : Word → Effect) : Effect :=
  match view.ram.cells[address]? with
  | some value => rest value
  | none => view.violation address

def writing (view : View) (address : Nat) (value : Word) (rest : View → Effect) : Effect :=
  if h : address < view.ram.cells.size then
    rest { view with ram := { view.ram with cells := view.ram.cells.set address value } }
  else
    view.violation address

/-- The stack grows downwards, and the word below zero does not exist. -/
def pushing (view : View) (value : Word) (rest : View → Effect) : Effect :=
  if view.reg .sp = 0 then
    .faults .stackOverflow view
  else
    view.writing (view.reg .sp - 1).toNat value fun written =>
      rest (written.setReg .sp (view.reg .sp - 1))

/-- The stack is empty where data memory ends. -/
def popping (view : View) (rest : Word → View → Effect) : Effect :=
  if view.ram.cells.size ≤ (view.reg .sp).toNat then
    .faults .stackUnderflow view
  else
    view.reading (view.reg .sp).toNat fun value =>
      rest value (view.setReg .sp (view.reg .sp + 1))

def withZero (view : View) (result : Word) : View :=
  view.setReg .flgs (view.reg .flgs &&& 0x0f ||| if result = 0 then 0x10 else 0)

def withComparison (view : View) (dest src : Word) : View :=
  view.setReg .flgs
    (view.reg .flgs &&& 0x18 ||| if src < dest then 1 else if dest < src then 2 else 4)

def withHalt (view : View) : View :=
  view.setReg .flgs (view.reg .flgs &&& 0x1f ||| 8)

def compute (view : View) (rd : Register) (result : Word) : Effect :=
  .passes ((view.withZero result).assign rd result).next none

def portIn (view : View) (port : UInt8) : Word :=
  if port = 0 then view.reg .inp else view.port port

def pixel (x y color : Word) : Pixel :=
  ⟨(x &&& 0xf).toUInt8, (y &&& 0xf).toUInt8, (color &&& 7).toUInt8⟩

/-- A write to a port. At the display port the value is a pixel too. -/
def portOut (view : View) (port : UInt8) (value : Word) : Effect :=
  .passes { view with port := Function.update view.port port value }.next
    (if port = 1 then some (pixel value (value >>> 4) (value >>> 8)) else none)

def perform (view : View) : Command → Effect
  | .nop => .passes view.next none
  | .halt => .halts view.withHalt
  | .move rd rs => .passes (view.assign rd (view.reg rs)).next none
  | .loadImmediate rd value => .passes (view.assign rd value).next none
  | .loadRam rd offset =>
    view.reading (view.address offset) fun value => .passes (view.assign rd value).next none
  | .storeRam offset rs =>
    view.writing (view.address offset) (view.reg rs) fun view => .passes view.next none
  | .push rs => view.pushing (view.reg rs) fun view => .passes view.next none
  | .pushImmediate value => view.pushing value fun view => .passes view.next none
  | .pushRam offset =>
    view.reading (view.address offset) fun value =>
      view.pushing value fun view => .passes view.next none
  | .pop rd => view.popping fun value view => .passes (view.assign rd value).next none
  | .popRam offset => view.popping fun value view =>
    view.writing (view.address offset) value fun view => .passes view.next none
  | .add rd operand => view.compute rd (view.reg rd + view.source operand)
  | .subtract rd operand => view.compute rd (view.reg rd - view.source operand)
  | .and rd rs => view.compute rd (view.reg rd &&& view.reg rs)
  | .or rd rs => view.compute rd (view.reg rd ||| view.reg rs)
  | .xor rd rs => view.compute rd (view.reg rd ^^^ view.reg rs)
  | .shiftLeft rt => view.compute rt (view.reg rt <<< 1)
  | .shiftRight rt => view.compute rt (view.reg rt >>> 1)
  | .compare rd rs => .passes (view.withComparison (view.reg rd) (view.reg rs)).next none
  | .branch condition target =>
    if Flags.bitsMeet (view.reg .flgs) condition then
      .passes (view.goTo (view.source target)) none
    else
      .passes view.next none
  | .call target =>
    view.pushing (view.reg .ip + 1) fun after => .passes (after.goTo (view.source target)) none
  | .ret => view.popping fun address view => .passes (view.goTo address) none
  | .output port rs => view.portOut port (view.reg rs)
  | .outputImmediate port value => view.portOut port value
  | .outputRam port offset =>
    view.reading (view.address offset) fun value => view.portOut port value
  | .input rd port => .passes (view.assign rd (view.portIn port)).next none
  | .inputRam offset port =>
    view.writing (view.address offset) (view.portIn port) fun view => .passes view.next none
  | .drawPixel rd rs color => .passes view.next (some (pixel (view.reg rd) (view.reg rs) color))

end View

end WordMachine.Machine
