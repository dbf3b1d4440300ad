import RoughCut.Work

/-!
A host in memory, with transcripts at hand and replies known beforehand. It
keeps what it is given in the order in which it is given.
-/

namespace RoughCut

/-- Transcripts by their keys and what is known beforehand, and what has been
stored and probed so far. -/
structure Memory where
  transcripts : List (String × Transcript)
  /-- the keys under which nothing is taken -/
  refused : List String
  reply : String → Option Probe.Reply
  stored : List (String × Cut)
  probed : List String

namespace Memory

/-- Why a memory does not give or take. -/
inductive Failure where
  | noTranscript (key : String)
  | refused (key : String)
  deriving DecidableEq

def Failure.message : Failure → String
  | noTranscript key => "no transcript " ++ key
  | refused key => "cannot store " ++ key

def load (key : String) : StateM Memory (Except Failure Transcript) := do
  match (← get).transcripts.lookup key with
  | some t => return .ok t
  | none => return .error (.noTranscript key)

def probe (path : String) : StateM Memory (Option Probe.Reply) :=
  modifyGet fun memory =>
    (memory.reply path, { memory with probed := memory.probed ++ [path] })

def store (key : String) (cut : Cut) : StateM Memory (Except Failure Unit) :=
  modifyGet fun memory =>
    if key ∈ memory.refused then (.error (.refused key), memory)
    else (.ok (), { memory with stored := memory.stored ++ [(key, cut)] })

/-- The host of a memory. -/
def host : Host (StateM Memory) Failure where
  load := load
  probe := probe
  store := store

end Memory

end RoughCut
