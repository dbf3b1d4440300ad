import RoughCut.Storage
import RoughCut.Work

/-!
A host on a file tree. The footage that is probed is kept in mind, so that it
can be said what has been asked for.
-/

namespace RoughCut

/-- A file tree and the paths of the footage that has been probed, in order. -/
structure Disk where
  tree : FileTree
  probed : List String

namespace Disk

def load (key : String) : StateM Disk (Except StorageError Transcript) := do
  return Storage.load (← get).tree key

/-- Answers a probe with what the tool is known to reply. -/
def probe (reply : String → Probe.Reply) (path : String) : StateM Disk (Option Probe.Reply) :=
  modifyGet fun disk => (some (reply path), { disk with probed := disk.probed ++ [path] })

def store (key : String) (cut : Cut) : StateM Disk (Except StorageError Unit) :=
  modifyGet fun disk =>
    let (result, tree) := Storage.store disk.tree key cut
    (result, { disk with tree := tree })

/-- The host of a disk, with given replies of the tool that measures footage. -/
def host (reply : String → Probe.Reply) : Host (StateM Disk) StorageError where
  load := load
  probe := probe reply
  store := store

end Disk

end RoughCut
