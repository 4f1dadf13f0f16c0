import MethodLift.FinMap
import MethodLift.Helper
import MethodLift.Isa.Basic

/-!
# Control flow graphs

A graph is a list of basic blocks, entry first, with an index of the addresses they start at. A
block lists the edges that leave it and the blocks that have an edge to it; `addEdge` keeps both
lists, each with a test of its own for what is there already. An edge leads to a block, to a direct
target outside the body, or to a target that only running the code would show.

Blocks are cut before every direct branch target in the body and after every instruction that ends a
block or never comes back; also where two instructions are not adjacent.
-/

namespace MethodLift

open MethodLift.Text

inductive EdgeKind where
  | fallThrough | conditional | unconditional | exception
  deriving DecidableEq, Repr

def EdgeKind.name : EdgeKind → String
  | fallThrough => "FallThrough"
  | conditional => "Conditional"
  | unconditional => "Unconditional"
  | exception => "Exception"

/-- Where an edge leads. -/
inductive Successor where
  | block (id : Nat)
  | outside (address : UInt64)
  | unknown
  deriving DecidableEq, Repr

structure Edge where
  kind : EdgeKind
  target : Successor
  deriving DecidableEq, Repr

/-- A run of instructions with one entry and one exit. -/
structure Block where
  /-- The position of the block in its graph. -/
  id : Nat
  start : UInt64
  instructions : List Instruction
  /-- The edges that leave the block, oldest first. -/
  successors : List Edge := []
  /-- The blocks that have an edge to this one, in the order of their first edge. -/
  predecessors : List Nat := []
  deriving DecidableEq, Repr

namespace Block

/-- The address after the last instruction. -/
def next (b : Block) : UInt64 :=
  match b.instructions.getLast? with
  | some i => i.next
  | none => b.start

/-- The target of the fall-through edge. -/
def fallThrough? (b : Block) : Option Successor :=
  (b.successors.find? fun e => e.kind == .fallThrough).map (·.target)

/-- No edge leaves the block. -/
def isTerminal (b : Block) : Bool := b.successors.isEmpty

end Block

/-- A protected range of addresses and its handler. -/
structure ExceptionRegion where
  start : UInt64
  stop : UInt64
  handler : UInt64
  deriving DecidableEq, Repr

structure Graph where
  blocks : List Block
  /-- The block that starts at an address. -/
  byStart : FinMap UInt64 Nat
  deriving DecidableEq, Repr

namespace Graph

/-- The graph of some blocks, with their edges as they are. Of two blocks that start at one address
the index has the later one. -/
def ofBlocks (blocks : List Block) : Graph :=
  ⟨blocks, blocks.foldl (fun index b => index.insert b.start b.id) ∅⟩

/-! ## Queries -/

def successors (g : Graph) (id : Nat) : List Edge :=
  (g.blocks[id]?.map (·.successors)).getD []

def predecessors (g : Graph) (id : Nat) : List Nat :=
  (g.blocks[id]?.map (·.predecessors)).getD []

/-- The block that starts at `address`. -/
def blockAt? (g : Graph) (address : UInt64) : Option Nat := do
  let b ← g.blocks[← g.byStart.get? address]?
  return b.id

/-- The last of the indexed addresses at or before `address`. -/
def lastStart? (g : Graph) (address : UInt64) : Option UInt64 :=
  ((g.byStart.entries.map (·.1)).filter (· ≤ address)).max?

/-- The block whose range covers `address`. -/
def blockContaining? (g : Graph) (address : UInt64) : Option Nat := do
  let b ← g.blocks[← g.byStart.get? (← g.lastStart? address)]?
  if address < b.next then some b.id else none

def instructionCount (g : Graph) : Nat := (g.blocks.flatMap fun b => b.instructions).length

/-- The number of edges whose target is not known. -/
def unknownCount (g : Graph) : Nat :=
  (g.blocks.flatMap fun b => b.successors).countP fun e => e.target == .unknown

/-! ## Edges -/

/-- Change the block at a position. -/
def edit (g : Graph) (id : Nat) (f : Block → Block) : Graph :=
  { g with blocks := g.blocks.modify id f }

/-- Note `source` among the predecessors of `target`, unless it is there. -/
def notePredecessor (g : Graph) (source target : Nat) : Graph :=
  if (g.predecessors target).contains source then g
  else g.edit target fun b => { b with predecessors := b.predecessors ++ [source] }

/-- Add an edge from block `source`, unless it is there. -/
def addEdge (g : Graph) (source : Nat) (edge : Edge) : Graph :=
  if (g.successors source).contains edge then g
  else
    let g := g.edit source fun b => { b with successors := b.successors ++ [edge] }
    match edge.target with
    | .block target => g.notePredecessor source target
    | .outside _ | .unknown => g

/-- The successor that a direct target leads to. -/
def resolve (g : Graph) (target : Option UInt64) : Successor :=
  match target with
  | none => .unknown
  | some t =>
    match g.byStart.get? t with
    | some id => .block id
    | none => .outside t

/-- Add exception edges from the blocks that start in a region to its handler. A region whose
handler starts no block adds nothing. -/
def attachRegion (g : Graph) (region : ExceptionRegion) : Graph :=
  match g.byStart.get? region.handler with
  | none => g
  | some handler =>
    g.blocks.zipIdx.foldl (fun g b =>
      if region.start ≤ b.1.start ∧ b.1.start < region.stop then
        g.addEdge b.2 ⟨.exception, .block handler⟩
      else g) g

def attachRegions (g : Graph) (regions : List ExceptionRegion) : Graph :=
  regions.foldl attachRegion g

/-! ## Building -/

/-- A direct call to a helper that never returns. -/
def isFinalCall (helpers : HelperTable) (kind : InstructionKind) (i : Instruction) : Bool :=
  kind == .call && i.target?.any helpers.neverReturns

/-- Addresses of instructions that start a block because of the instruction before them. -/
def leadersAfter (isa : InstructionSet) (helpers : HelperTable) : List Instruction → List UInt64
  | i :: j :: rest =>
    let kind := isa.kind i
    let cut := kind.endsBlock || isFinalCall helpers kind i || j.address != i.next
    (if cut then [j.address] else []) ++ leadersAfter isa helpers (j :: rest)
  | _ => []

/-- Direct branch targets that are instructions of the body. -/
def branchTargets (isa : InstructionSet) (body : List Instruction) : List UInt64 :=
  (body.filter fun i => (isa.kind i).isDirectBranch).filterMap fun i =>
    i.target?.filter fun t => body.any fun j => j.address == t

/-- Addresses at which a block starts. -/
def leaders (isa : InstructionSet) (helpers : HelperTable) (body : List Instruction) :
    List UInt64 :=
  (body.head?.map (·.address)).toList ++ leadersAfter isa helpers body ++ branchTargets isa body

/-- Cut a list before every element that satisfies `p`. -/
def cutBefore {α : Type} (p : α → Bool) : List α → List (List α)
  | [] => []
  | x :: xs =>
    match cutBefore p xs with
    | [] => [[x]]
    | run :: runs =>
      if (run.head?.any p) then [x] :: run :: runs else (x :: run) :: runs

/-- The blocks of a body. -/
def carve (isa : InstructionSet) (helpers : HelperTable) (body : List Instruction) : List Block :=
  let starts := leaders isa helpers body
  (cutBefore (fun i => starts.contains i.address) body).zipIdx.filterMap fun run =>
    run.1.head?.map fun i => { id := run.2, start := i.address, instructions := run.1 }

/-- The edges that the last instruction of a block calls for. -/
def edgesFrom (isa : InstructionSet) (helpers : HelperTable) (g : Graph) (last : Instruction) :
    List Edge :=
  let kind := isa.kind last
  let fall := g.resolve (some last.next)
  if kind = .ret ∨ kind = .trap ∨ isFinalCall helpers kind last then []
  else if kind = .jump then [⟨.unconditional, g.resolve last.target?⟩]
  else if kind = .indirectJump then [⟨.unconditional, .unknown⟩]
  else if kind.isConditional then
    [⟨.conditional, g.resolve last.target?⟩, ⟨.fallThrough, fall⟩]
  else [⟨.fallThrough, fall⟩]

/-- Add the edges that a block calls for. -/
def wire (isa : InstructionSet) (helpers : HelperTable) (g : Graph) (b : Block × Nat) : Graph :=
  match b.1.instructions.getLast? with
  | none => g
  | some last => (edgesFrom isa helpers g last).foldl (fun g e => g.addEdge b.2 e) g

/-- The control flow graph of a body. -/
def build (isa : InstructionSet) (helpers : HelperTable) (body : List Instruction) : Graph :=
  let blocks := carve isa helpers body
  blocks.zipIdx.foldl (wire isa helpers) (ofBlocks blocks)

/-! ## Text -/

def renderSuccessor : Successor → String
  | .block id => "block_" ++ toString id
  | .outside a => "0x" ++ hexUpper a.toNat
  | .unknown => "?"

def renderBlock (b : Block) : String :=
  "block_" ++ toString b.id ++ " @ 0x" ++ hexUpper b.start.toNat ++ ":\n" ++
    String.join (b.instructions.map fun i =>
      "  0x" ++ hexUpper i.address.toNat ++ " " ++ i.render ++ "\n") ++
    String.join (b.successors.map fun e =>
      "  -> " ++ renderSuccessor e.target ++ " (" ++ e.kind.name ++ ")\n")

def render (g : Graph) : String :=
  String.join (g.blocks.map renderBlock)

end Graph

end MethodLift
