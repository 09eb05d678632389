import LoopMemory.Description
import LoopMemory.Toml.Decode

/-!
Settings and descriptions as they are written in a file: the fields of each table, in the order in
which a message lists them.
-/
namespace LoopMemory

namespace Settings
open Toml Toml.Decoder

def record : Record Settings where
  name := "Settings"
  start := {}
  fields := [
    field "assume_loops_execute" boolean fun s b => { s with assumeLoopsExecute := b },
    field "downgrade_escaped_writes" boolean fun s b => { s with downgradeEscapedWrites := b },
    field "parallel_routines" boolean fun s b => { s with parallelRoutines := b }]

def parse (text : String) : Except Unreadable Settings := record.decode.decodeText text

end Settings

namespace Description
open Toml Toml.Decoder

def strings : Decoder (List String) := list string

def variableRecord : Record VariableEntry where
  name := "VariableDescription"
  start := { name := "" }
  fields := [
    { field "name" string (fun v s => { v with name := s }) with required := true },
    field "size" unsigned fun v n => { v with size := some n },
    field "escapes" boolean fun v b => { v with escapes := b },
    field "opaque" boolean fun v b => { v with wild := b }]

def aliasRecord : Record AliasEntry where
  name := "AliasDescription"
  start := {}
  fields := [{ field "pair" (pair string) (fun a p => { a with pair := p }) with required := true }]

def loopRecord : Record LoopEntry where
  name := "LoopDescription"
  start := { name := "" }
  fields := [
    { field "name" string (fun l s => { l with name := s }) with required := true },
    field "parent" string fun l s => { l with parent := some s },
    field "executes_at_least_once" boolean fun l b => { l with executesAtLeastOnce := b },
    field "entry" string fun l s => { l with entry := some s },
    field "successors" strings fun l ss => { l with successors := ss },
    field "live_out" strings fun l ss => { l with liveOut := ss }]

def operations : List (String × Operation) := [
  ("load", .load), ("store", .store), ("update", .update), ("may_load", .mayLoad),
  ("may_store", .mayStore), ("address", .address), ("call", .call), ("opaque", .unresolved)]

def instructionRecord : Record InstructionEntry where
  name := "InstructionDescription"
  start := { operation := .load }
  fields := [
    { field "op" (variant operations) (fun i o => { i with operation := o }) with required := true },
    field "target" string fun i s => { i with target := some s },
    field "offset" signed fun i n => { i with offset := n },
    field "size" unsigned fun i n => { i with size := some n },
    field "reads" strings fun i ss => { i with reads := ss },
    field "writes" strings fun i ss => { i with writes := ss },
    field "opaque" boolean fun i b => { i with wild := b }]

def blockRecord : Record BlockEntry where
  name := "BlockDescription"
  start := { name := "" }
  fields := [
    { field "name" string (fun b s => { b with name := s }) with required := true },
    field "region" string fun b s => { b with region := some s },
    field "successors" strings fun b ss => { b with successors := ss },
    field "instructions" (list instructionRecord.decode) fun b is => { b with instructions := is }]

def expectationRecord : Record Expectation where
  name := "RegionExpectation"
  start := {}
  completeInArray := true
  fields := [
    field "defs" strings fun e ss => { e with defs := some ss },
    field "may_defs" strings fun e ss => { e with mayDefs := some ss },
    field "uses" strings fun e ss => { e with uses := some ss },
    field "must_reach_out" strings fun e ss => { e with mustReachOut := some ss },
    field "may_reach_out" strings fun e ss => { e with mayReachOut := some ss },
    field "private" strings fun e ss => { e with priv := some ss },
    field "shared" strings fun e ss => { e with shared := some ss }]

def routineRecord : Record Routine where
  name := "RoutineDescription"
  start := { name := "" }
  fields := [
    { field "name" string (fun r s => { r with name := s }) with required := true },
    field "entry" string fun r s => { r with entry := some s },
    field "variable" (list variableRecord.decode) fun r vs => { r with vars := vs },
    field "alias" (list aliasRecord.decode) fun r as => { r with aliases := as },
    field "loop" (list loopRecord.decode) fun r ls => { r with loops := ls },
    field "block" (list blockRecord.decode) fun r bs => { r with blocks := bs },
    field "expect" (dict expectationRecord.decode) fun r es => { r with expect := es }]

def record : Record Description where
  name := "Description"
  start := {}
  fields := [field "routine" (list routineRecord.decode) fun d rs => { d with routines := rs }]

def parse (text : String) : Except Unreadable Description := record.decode.decodeText text

end Description
end LoopMemory
