import Barrage.Runner.Tick

/-!
# Swarms

A swarm holds bullets with their patterns, in the order in which they came, and ticks them all. An
error stays with the pattern that raised it.

* `Swarm.insert`, `Swarm.remove`, `Swarm.get?`, `Swarm.modify`, `Swarm.modifyAll`: the bullets.
* `Swarm.tick`: every running pattern has its tick; bullets that vanished leave, and those that were
  made join at the end.
* `Report`: what a tick of a swarm changed.
-/

namespace Barrage

/-- A bullet and its pattern, if it has one. -/
structure Entry (α : Type) where
  bullet : Bullet α
  runner : Option Runner

/-- Bullets with their patterns, in the order in which they came. -/
structure Swarm (α : Type) where
  entries : List (Entry α)

/-- What a tick of a swarm changed. -/
structure Report where
  /-- Bullets that joined, in the order in which they were made. -/
  spawned : List BulletId
  /-- Bullets that were removed by their pattern. -/
  removed : List BulletId
  /-- Bullets whose pattern came to its end. -/
  completed : List BulletId
  /-- Bullets whose pattern failed or could not be built; the bullets stay. -/
  aborted : List (BulletId × StepError)
deriving DecidableEq

namespace Report

/-- Nothing changed. -/
def nothing : Report := ⟨[], [], [], []⟩

/-- One report after another. -/
def append (a b : Report) : Report :=
  ⟨a.spawned ++ b.spawned, a.removed ++ b.removed, a.completed ++ b.completed,
    a.aborted ++ b.aborted⟩

end Report

namespace Swarm

variable {α : Type}

/-- No bullets. -/
def empty : Swarm α := ⟨[]⟩

/-- The number of bullets. -/
def size (s : Swarm α) : Nat := s.entries.length

/-- Adds a bullet; its pattern is bound to it. -/
def insert (s : Swarm α) (bullet : Bullet α) (runner : Option Runner) : Swarm α :=
  ⟨s.entries ++ [⟨bullet, runner.map (·.bind bullet.id)⟩]⟩

/-- The first entry of a bullet. -/
def entry? (s : Swarm α) (id : BulletId) : Option (Entry α) :=
  s.entries.find? fun e => e.bullet.id == id

/-- A bullet. -/
def get? (s : Swarm α) (id : BulletId) : Option (Bullet α) := (s.entry? id).map (·.bullet)

/-- The pattern of a bullet. -/
def runner? (s : Swarm α) (id : BulletId) : Option Runner := (s.entry? id).bind (·.runner)

/-- The swarm without the first entry of a bullet, and that bullet. -/
def remove (s : Swarm α) (id : BulletId) : Option (Bullet α) × Swarm α :=
  (s.get? id, ⟨s.entries.eraseP fun e => e.bullet.id == id⟩)

/-- Changes the first of some entries that belongs to a bullet. -/
def modifyFirst (id : BulletId) (f : Bullet α → Bullet α) : List (Entry α) → List (Entry α)
  | [] => []
  | e :: rest =>
    if e.bullet.id == id then { e with bullet := f e.bullet } :: rest
    else e :: modifyFirst id f rest

/-- Changes a bullet. -/
def modify (s : Swarm α) (id : BulletId) (f : Bullet α → Bullet α) : Swarm α :=
  ⟨modifyFirst id f s.entries⟩

/-- Changes every bullet. -/
def modifyAll (s : Swarm α) (f : Bullet α → Bullet α) : Swarm α :=
  ⟨s.entries.map fun e => { e with bullet := f e.bullet }⟩

end Swarm

/-- Entries after a tick, with the host's state and what they made and report. -/
structure Pass (φ ρ α : Type) where
  entries : List (Entry α)
  factory : φ
  source : ρ
  spawned : List (Spawn α)
  report : Report

namespace Entry

variable {φ ρ α : Type}

/-- What a tick of one pattern reports. -/
def report (id : BulletId) (t : Tick φ ρ α) : Report :=
  match t.failure with
  | some e => { Report.nothing with aborted := [(id, e)] }
  | none =>
    if t.removed then { Report.nothing with removed := [id] }
    else if t.runner.state = .completed then { Report.nothing with completed := [id] }
    else .nothing

/-- Whether the pattern of an entry removed its bullet. -/
def hasVanished (e : Entry α) : Bool := e.runner.any fun r => r.state == .vanished

/-- One tick of an entry; only a running pattern does anything. -/
def tick [RandomSource ρ] [BulletFactory φ α] (frame : Frame) (e : Entry α) (factory : φ)
    (source : ρ) : Entry α × φ × ρ × List (Spawn α) × Report :=
  match e.runner with
  | some r =>
    if r.isRunning then
      let t := r.tick frame e.bullet factory source
      (⟨t.owner, some t.runner⟩, t.factory, t.source, t.spawned, report e.bullet.id t)
    else (e, factory, source, [], .nothing)
  | none => (e, factory, source, [], .nothing)

end Entry

namespace Swarm

variable {φ ρ α : Type}

/-- The ticks of several entries, one after the other. -/
def pass [RandomSource ρ] [BulletFactory φ α] (frame : Frame) :
    List (Entry α) → φ → ρ → Pass φ ρ α
  | [], factory, source => ⟨[], factory, source, [], .nothing⟩
  | e :: rest, factory, source =>
    let (e, factory, source, spawned, report) := e.tick frame factory source
    let p := pass frame rest factory source
    { p with
      entries := e :: p.entries
      spawned := spawned ++ p.spawned
      report := report.append p.report }

/-- The swarm with a bullet that was made. -/
def join (s : Swarm α) (spawn : Spawn α) : Swarm α := s.insert spawn.bullet spawn.runner

/-- What the joining of a bullet reports. -/
def joinReport (spawn : Spawn α) : Report :=
  { Report.nothing with
    spawned := [spawn.bullet.id]
    aborted := spawn.fault.toList.map fun e => (spawn.bullet.id, e) }

/-- The swarm without the bullets that vanished. -/
def sweep (s : Swarm α) : Swarm α := ⟨s.entries.filter fun e => !e.hasVanished⟩

/-- A swarm after a tick, with the host's state. -/
structure Ticked (φ ρ α : Type) where
  swarm : Swarm α
  factory : φ
  source : ρ
  report : Report

/-- One tick of all patterns: they have their turns in order, then vanished bullets leave, then the
bullets that were made join. -/
def tick [RandomSource ρ] [BulletFactory φ α] (s : Swarm α) (frame : Frame) (factory : φ)
    (source : ρ) : Ticked φ ρ α :=
  let p := pass frame s.entries factory source
  { swarm := p.spawned.foldl join (sweep ⟨p.entries⟩)
    factory := p.factory
    source := p.source
    report := p.report.append ((p.spawned.map joinReport).foldr Report.append .nothing) }

end Swarm

end Barrage
