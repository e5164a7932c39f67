import Rulebook.Command.Run
import Rulebook.Script.Evaluator

namespace Rulebook

open Command

def attempted {α : Type} (action : IO α) : IO (Except String α) := do
  match ← action.toBaseIO with
  | .ok a => return .ok a
  | .error e => return .error (toString e)

def readListing (dir : String) : IO (Option Listing) := do
  let top := (← IO.currentDir) / dir
  if dir.isEmpty || !(← top.isDir) then return none
  let start := top.components.length
  let mut files := #[]
  for path in ← top.walkDir do
    let name := "/".intercalate (path.components.drop start)
    if Catalog.isCandidate name && !(← path.isDir) then
      match ← attempted (IO.FS.readBinFile path) with
      | .ok bytes => files := files.push (name, bytes)
      | .error _ => pure ()
  return some files.toList

def diskFiles : Files IO where
  read path := attempted (IO.FS.readBinFile path)
  isFile path := do
    let top := (← IO.currentDir) / path
    return (← top.pathExists) && !(← top.isDir)
  listing := readListing
  write path bytes := attempted (IO.FS.writeBinFile path bytes)

def readEnvironment : IO (String → Option String) := do
  let names := ["HOME", "XDG_CONFIG_HOME", Settings.rulesetsDirName, Settings.defaultRulesetName,
    Settings.timeoutName, Settings.memoryName]
  let found ← names.filterMapM fun name => do return (← IO.getEnv name).map (name, ·)
  return fun name => found.lookup name

end Rulebook

def main (args : List String) : IO UInt32 := do
  let env ← Rulebook.readEnvironment
  let outcome ← Rulebook.Command.run Rulebook.diskFiles Rulebook.Script.evaluate env args
  for line in outcome.out do IO.println line
  for line in outcome.err do IO.eprintln line
  return outcome.code.toUInt32
