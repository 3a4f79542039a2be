import WordMachine.Isa.Word

/-! The sixteen registers, their addresses, their names and their widths. -/
namespace WordMachine.Isa

/-- Ten general registers, the data pointer, the stack pointer, one more general register, the
button state, the flags and the instruction pointer. -/
inductive Register
  | a | b | c | d | e | f | g | h | i | j | dp | sp | k | inp | flgs | ip
  deriving DecidableEq

namespace Register

def all : List Register :=
  [a, b, c, d, e, f, g, h, i, j, dp, sp, k, inp, flgs, ip]

def address : Register → Fin 16
  | a => 0 | b => 1 | c => 2 | d => 3 | e => 4 | f => 5 | g => 6 | h => 7
  | i => 8 | j => 9 | dp => 10 | sp => 11 | k => 12 | inp => 13 | flgs => 14 | ip => 15

def ofAddress? (address : UInt8) : Option Register :=
  all[address.toNat]?

def name : Register → List Char
  | a => "a".toList | b => "b".toList | c => "c".toList | d => "d".toList
  | e => "e".toList | f => "f".toList | g => "g".toList | h => "h".toList
  | i => "i".toList | j => "j".toList | dp => "dp".toList | sp => "sp".toList
  | k => "k".toList | inp => "inp".toList | flgs => "flgs".toList | ip => "ip".toList

def ofName? (name : List Char) : Option Register :=
  all.find? fun register => register.name == name.map Char.toLower

inductive Width
  | byte | word
  deriving DecidableEq

def Width.mask : Width → Word
  | .byte => 0x00ff
  | .word => 0xffff

/-- Buttons and flags take a byte, all else a word. -/
def width : Register → Width
  | inp | flgs => .byte
  | _ => .word

theorem ofAddress?_address (register : Register) :
    ofAddress? (UInt8.ofNat register.address) = some register := by
  cases register <;> rfl

theorem address_injective {register other : Register} (h : register.address = other.address) :
    register = other := by
  have hsome : some register = some other := by
    rw [← ofAddress?_address register, h, ofAddress?_address]
  exact Option.some.inj hsome

theorem ofName?_name (register : Register) : ofName? register.name = some register := by
  cases register <;> rfl

end Register

end WordMachine.Isa
