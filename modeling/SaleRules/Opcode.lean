/-!
# Opcodes of the condition machine

The numbers and mnemonics below are shared with the deployed machine and never change. Few of them
occur in the rules this library writes; the others are here so that any program can be named.

An effect on the stack is known from the opcode (`fixed`), known from the opcode and its operand
(`byOperand`: pop as many values as the operand says and push one), or known to the contract only
(`dynamic`).
-/
namespace SaleRules

/-- How an instruction changes the height of the stack. -/
inductive StackEffect where
  | fixed (pops pushes : Nat)
  | byOperand
  | dynamic
  deriving DecidableEq, Repr

inductive Opcode where
  | skip | val | dup | zipmap | debug
  | blockNumber | blockTimestamp | sender | thisAddress
  | scale18Mul | scale18Div | scale18 | scaleN | scaleBy | scale18One | scale18Decimals
  | add | saturatingAdd | sub | saturatingSub | mul | saturatingMul | div | mod | exp | min | max
  | isZero | eagerIf | equalTo | lessThan | greaterThan | every | any
  | report | never | always | saturatingDiff | updateBlocksForTierRange | selectLte
  | ierc20BalanceOf | ierc20TotalSupply | ierc721BalanceOf | ierc721OwnerOf
  | ierc1155BalanceOf | ierc1155BalanceOfBatch
  | remainingUnits | totalReserveIn | lastBuyBlock | lastBuyUnits | lastBuyPrice
  | currentBuyUnits | tokenAddress | reserveAddress
  deriving DecidableEq, Repr, Inhabited

/-- Why an instruction has no encoding. -/
inductive EncodingError where
  | unknownCode (code : Nat)
  | unknownMnemonic (name : String)
  | operandTooWide (opcode : Opcode) (operand : Nat)
  deriving DecidableEq, Repr

namespace Opcode

/-- Every opcode, in the order of the codes. -/
def all : List Opcode := [
  skip, val, dup, zipmap, debug,
  blockNumber, blockTimestamp, sender, thisAddress,
  scale18Mul, scale18Div, scale18, scaleN, scaleBy, scale18One, scale18Decimals,
  add, saturatingAdd, sub, saturatingSub, mul, saturatingMul, div, mod, exp, min, max,
  isZero, eagerIf, equalTo, lessThan, greaterThan, every, any,
  report, never, always, saturatingDiff, updateBlocksForTierRange, selectLte,
  ierc20BalanceOf, ierc20TotalSupply, ierc721BalanceOf, ierc721OwnerOf,
  ierc1155BalanceOf, ierc1155BalanceOfBatch,
  remainingUnits, totalReserveIn, lastBuyBlock, lastBuyUnits, lastBuyPrice,
  currentBuyUnits, tokenAddress, reserveAddress]

/-- The byte that stands for an opcode. -/
def code : Opcode → UInt8
  | skip => 0 | val => 1 | dup => 2 | zipmap => 3 | debug => 4
  | blockNumber => 5 | blockTimestamp => 6 | sender => 7 | thisAddress => 8
  | scale18Mul => 9 | scale18Div => 10 | scale18 => 11 | scaleN => 12 | scaleBy => 13
  | scale18One => 14 | scale18Decimals => 15
  | add => 16 | saturatingAdd => 17 | sub => 18 | saturatingSub => 19 | mul => 20
  | saturatingMul => 21 | div => 22 | mod => 23 | exp => 24 | min => 25 | max => 26
  | isZero => 27 | eagerIf => 28 | equalTo => 29 | lessThan => 30 | greaterThan => 31
  | every => 32 | any => 33
  | report => 34 | never => 35 | always => 36 | saturatingDiff => 37
  | updateBlocksForTierRange => 38 | selectLte => 39
  | ierc20BalanceOf => 40 | ierc20TotalSupply => 41 | ierc721BalanceOf => 42
  | ierc721OwnerOf => 43 | ierc1155BalanceOf => 44 | ierc1155BalanceOfBatch => 45
  | remainingUnits => 46 | totalReserveIn => 47 | lastBuyBlock => 48 | lastBuyUnits => 49
  | lastBuyPrice => 50 | currentBuyUnits => 51 | tokenAddress => 52 | reserveAddress => 53

def mnemonic : Opcode → String
  | skip => "SKIP"
  | val => "VAL"
  | dup => "DUP"
  | zipmap => "ZIPMAP"
  | debug => "DEBUG"
  | blockNumber => "BLOCK_NUMBER"
  | blockTimestamp => "BLOCK_TIMESTAMP"
  | sender => "SENDER"
  | thisAddress => "THIS_ADDRESS"
  | scale18Mul => "SCALE18_MUL"
  | scale18Div => "SCALE18_DIV"
  | scale18 => "SCALE18"
  | scaleN => "SCALEN"
  | scaleBy => "SCALE_BY"
  | scale18One => "SCALE18_ONE"
  | scale18Decimals => "SCALE18_DECIMALS"
  | add => "ADD"
  | saturatingAdd => "SATURATING_ADD"
  | sub => "SUB"
  | saturatingSub => "SATURATING_SUB"
  | mul => "MUL"
  | saturatingMul => "SATURATING_MUL"
  | div => "DIV"
  | mod => "MOD"
  | exp => "EXP"
  | min => "MIN"
  | max => "MAX"
  | isZero => "ISZERO"
  | eagerIf => "EAGER_IF"
  | equalTo => "EQUAL_TO"
  | lessThan => "LESS_THAN"
  | greaterThan => "GREATER_THAN"
  | every => "EVERY"
  | any => "ANY"
  | report => "REPORT"
  | never => "NEVER"
  | always => "ALWAYS"
  | saturatingDiff => "SATURATING_DIFF"
  | updateBlocksForTierRange => "UPDATE_BLOCKS_FOR_TIER_RANGE"
  | selectLte => "SELECT_LTE"
  | ierc20BalanceOf => "IERC20_BALANCE_OF"
  | ierc20TotalSupply => "IERC20_TOTAL_SUPPLY"
  | ierc721BalanceOf => "IERC721_BALANCE_OF"
  | ierc721OwnerOf => "IERC721_OWNER_OF"
  | ierc1155BalanceOf => "IERC1155_BALANCE_OF"
  | ierc1155BalanceOfBatch => "IERC1155_BALANCE_OF_BATCH"
  | remainingUnits => "REMAINING_UNITS"
  | totalReserveIn => "TOTAL_RESERVE_IN"
  | lastBuyBlock => "LAST_BUY_BLOCK"
  | lastBuyUnits => "LAST_BUY_UNITS"
  | lastBuyPrice => "LAST_BUY_PRICE"
  | currentBuyUnits => "CURRENT_BUY_UNITS"
  | tokenAddress => "TOKEN_ADDRESS"
  | reserveAddress => "RESERVE_ADDRESS"

/-- The effect on the stack; arithmetic and token calls check state that only the contract sees. -/
def effect : Opcode → StackEffect
  | debug => .fixed 0 0
  | val | dup => .fixed 0 1
  | blockNumber | blockTimestamp | sender | thisAddress => .fixed 0 1
  | isZero => .fixed 1 1
  | eagerIf => .fixed 3 1
  | equalTo | lessThan | greaterThan => .fixed 2 1
  | every | any => .byOperand
  | remainingUnits | totalReserveIn | lastBuyBlock | lastBuyUnits | lastBuyPrice => .fixed 0 1
  | currentBuyUnits | tokenAddress | reserveAddress => .fixed 0 1
  | skip | zipmap => .dynamic
  | scale18Mul | scale18Div | scale18 | scaleN | scaleBy | scale18One | scale18Decimals => .dynamic
  | add | saturatingAdd | sub | saturatingSub | mul | saturatingMul | div | mod => .dynamic
  | exp | min | max => .dynamic
  | report | never | always | saturatingDiff | updateBlocksForTierRange | selectLte => .dynamic
  | ierc20BalanceOf | ierc20TotalSupply | ierc721BalanceOf | ierc721OwnerOf => .dynamic
  | ierc1155BalanceOf | ierc1155BalanceOfBatch => .dynamic

/-- The opcode of a number. Numbers wider than a byte are refused, not cut to one. -/
def ofCode (code : Nat) : Except EncodingError Opcode :=
  match all[code]? with
  | some opcode => .ok opcode
  | none => .error (.unknownCode code)

/-- The opcode of a mnemonic written in ASCII letters of any case. -/
def ofMnemonic (name : String) : Except EncodingError Opcode :=
  let upper := String.ofList (name.toList.map Char.toUpper)
  match all.find? (·.mnemonic == upper) with
  | some opcode => .ok opcode
  | none => .error (.unknownMnemonic name)

@[simp] theorem ofCode_code (opcode : Opcode) : ofCode opcode.code.toNat = .ok opcode := by
  cases opcode <;> rfl

end Opcode

end SaleRules
