import MethodLift.Json.Basic
import MethodLift.Lowered.Basic

/-!
# Lowered code as JSON
-/

namespace MethodLift.Lowered

open MethodLift (Json)

def word (w : UInt64) : Json := .ofNat w.toNat

def signed (w : Int64) : Json := .ofInt w.toInt

def optionalText (t : Option String) : Json := .ofOption .string t

def OpCode.toJson : OpCode → Json
  | arithmetic op => .object [("Arithmetic", .string op.name)]
  | jumpIf c => .object [("JumpIf", .string c.name)]
  | code => .string code.render

def Value.toJson : Value → Json
  | register r => .object [("Register", .string r)]
  | stackSlot o => .object [("StackSlot", signed o)]
  | immediate v => .object [("Immediate", signed v)]
  | memory a => .object [("Memory", .object
      [("base", optionalText a.base), ("index", optionalText a.index),
       ("scale", .ofNat a.scale.toNat), ("offset", signed a.offset)])]
  | target a => .object [("Target", word a)]

def Node.toJson (n : Node) : Json :=
  .object
    [("address", word n.address), ("opcode", n.code.toJson),
     ("operands", .array (n.values.map Value.toJson)), ("original", optionalText n.text)]

def successorJson : Successor → Json
  | .block id => .object [("Block", .ofNat id)]
  | .outside a => .object [("External", word a)]
  | .unknown => .string "Unknown"

def edgeJson (e : Edge) : Json :=
  .object [("kind", .string e.kind.name), ("target", successorJson e.target)]

def Block.toJson (b : Block) : Json :=
  .object
    [("block", .ofNat b.id), ("start", word b.start), ("nodes", .array (b.nodes.map Node.toJson)),
     ("successors", .array (b.successors.map edgeJson))]

end MethodLift.Lowered
