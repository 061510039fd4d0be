import OsvBenchmarks.Library.Runs
import OsvBenchmarks.Library.Layers
import Mathlib.Algebra.Ring.Nat

/-!
The breadth-first search of bfs_kernel.hpp: the main thread cuts each frontier
into chunks, starts a worker for each, joins them and swaps the frontiers. Its
steps interleave freely with the workers' compare-and-swaps and merges. The
visited filter is written but never read here and is left out; sizes and indices
stay below 2^64.
-/
namespace Bfs
open Runs Layers

/-- k_infinite_level -/
def infiniteLevel : ℕ := 65535

structure Graph where
  numVertices : ℕ
  index : ℕ → ℕ
  edges : ℕ → ℕ
  monotone : ∀ v < numVertices, index v ≤ index (v + 1)
  inside : ∀ j < index numVertices, edges j < numVertices

namespace Graph

/-- The targets of `src` in the order in which the worker meets them. -/
def targets (g : Graph) (src : ℕ) : List ℕ :=
  (List.range' (g.index src) (g.index (src + 1) - g.index src)).map g.edges

def Edge (g : Graph) (src trg : ℕ) : Prop := src < g.numVertices ∧ trg ∈ g.targets src

/-- What the worker of `start, .., stop - 1` has to try, in order. -/
def scan (g : Graph) (frontier : List ℕ) (start stop : ℕ) : List ℕ :=
  (List.range' start (stop - start)).flatMap fun i => g.targets (frontier.getD i 0)

end Graph

/-- A worker with the targets it has still to try and its local_next_frontier. -/
inductive Worker
  | absent
  | running (todo found : List ℕ)
  | finished
  deriving DecidableEq

inductive Main
  | check
  | create (i : ℕ)
  | join (i : ℕ)
  | returned
  | crashed
  deriving DecidableEq

structure State where
  level : ℕ → ℕ
  frontier : List ℕ
  nextFrontier : List ℕ
  currentLevel : ℕ
  workers : ℕ → Worker
  main : Main

inductive Event
  | main
  | worker (i : ℕ)

def set {B : Type*} (f : ℕ → B) (a : ℕ) (b : B) : ℕ → B := fun x => if x = a then b else f x

def initBfs (numVertices : ℕ) (level : ℕ → ℕ) : ℕ → ℕ := fun v =>
  if v < numVertices then infiniteLevel else level v

/-- run_bfs up to its loop -/
def start (g : Graph) (level : ℕ → ℕ) (root : ℕ) : State where
  level := set (initBfs g.numVertices level) root 0
  frontier := [root]
  nextFrontier := []
  currentLevel := 0
  workers := fun _ => .absent
  main := .check

def State.chunkSize (s : State) (numThreads : ℕ) : ℕ :=
  (s.frontier.length + numThreads - 1) / numThreads

def State.stop (s : State) (numThreads i : ℕ) : ℕ :=
  min (i * s.chunkSize numThreads + s.chunkSize numThreads) s.frontier.length

def State.chunk (s : State) (g : Graph) (numThreads i : ℕ) : List ℕ :=
  g.scan s.frontier (i * s.chunkSize numThreads) (s.stop numThreads i)

/-- The level a worker stores. -/
def State.nextLevel (s : State) : ℕ := (s.currentLevel + 1) % 2 ^ 16

/-- Joining a thread that was not started is undefined. -/
def mainStep (g : Graph) (numThreads : ℕ) (s : State) : Option State :=
  match s.main with
  | .check =>
    if s.frontier = [] then some { s with main := .returned }
    else some { s with nextFrontier := [], main := .create 0 }
  | .create i =>
    if i < numThreads then
      if i * s.chunkSize numThreads ≥ s.stop numThreads i then
        some { s with main := .create (i + 1) }
      else
        some { s with
          workers := set s.workers i (.running (s.chunk g numThreads i) [])
          main := .create (i + 1) }
    else some { s with main := .join 0 }
  | .join i =>
    if i < numThreads then
      if i * s.chunkSize numThreads < s.frontier.length then
        match s.workers i with
        | .absent => some { s with main := .crashed }
        | .running _ _ => none
        | .finished => some { s with workers := set s.workers i .absent, main := .join (i + 1) }
      else some { s with main := .join (i + 1) }
    else if s.nextFrontier = [] then some { s with main := .returned }
    else
      some { s with
        frontier := s.nextFrontier
        nextFrontier := s.frontier
        currentLevel := s.nextLevel
        main := .check }
  | .returned => none
  | .crashed => none

/-- bfs_level_worker: one compare-and-swap, or the merge under the mutex. -/
def workerStep (s : State) (i : ℕ) : Option State :=
  match s.workers i with
  | .running (trg :: todo) found =>
    if s.level trg = infiniteLevel then
      some { s with
        level := set s.level trg s.nextLevel
        workers := set s.workers i (.running todo (found ++ [trg])) }
    else some { s with workers := set s.workers i (.running todo found) }
  | .running [] found =>
    some { s with
      nextFrontier := s.nextFrontier ++ found
      workers := set s.workers i .finished }
  | .absent => none
  | .finished => none

def next (g : Graph) (numThreads : ℕ) (s : State) : Event → Option State
  | .main => mainStep g numThreads s
  | .worker i => workerStep s i

end Bfs
