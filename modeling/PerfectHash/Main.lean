import PerfectHash.Dump
import PerfectHash.Hash.Families

set_option autoImplicit false

/-! # Command line

The program takes the name of a file with a dump of keys, builds the table for the keys, and
reports what the table took and what it is made of. A second table over another family is built
for comparison.
-/

namespace PerfectHash

def comparison (result : Outcome (Table .splitMix)) : String :=
  match result with
  | .ok table =>
      let salt := table.census.maxSalt
      s!"splitmix family: max salt {salt}"
  | .error failure =>
      let reason := failure.message
      s!"splitmix family failed: {reason}"

def Dump.render (source : String) (dump : Dump .wyhash) : List String :=
  let unique := dump.unique.length
  let cost := dump.report.cost
  let checksum := String.ofList (Nat.toDigits 16 dump.checksum.toNat)
  [s!"loaded {dump.loaded} keys ({unique} unique) from {source}",
    s!"build: {cost.multiKey} multi-key buckets, {cost.attempts} salt attempts",
    s!"lookup: checksum 0x{checksum}",
    comparison (Table.build .splitMix {} dump.unique),
    dump.table.census.render]

/-- Reports on the dump in the file that is named by the arguments. The result is the exit
code. -/
def runCommand (arguments : List String) : IO UInt32 := do
  match arguments with
  | [path] =>
      let bytes ← IO.FS.readBinFile path
      match Dump.load .wyhash bytes.toList with
      | .ok dump =>
          for line in dump.render path do
            IO.println line
          return 0
      | .error failure =>
          IO.eprintln failure.message
          return 1
  | _ =>
      IO.eprintln "usage: one file of little-endian 64-bit keys"
      return 2

end PerfectHash

def main (arguments : List String) : IO UInt32 := PerfectHash.runCommand arguments
