/-
Engines that differ in their resolvers only.  A stream sees no resolver but its
own, so that it goes on alike on all engines that have this one alike, wherever
it stands among the others.
-/
import Horn.Proofs.Hygiene

namespace Horn

namespace Engine

/-- Engines that have the same except for their resolvers, of which those up to a
bound correspond: the second engine has them at places lower by an offset. -/
structure Alike (offset bound : Nat) (engine other : Engine) : Prop where
  env : engine.env = other.env
  patience : engine.patience = other.patience
  current : bound + offset ≤ engine.current
  otherCurrent : bound ≤ other.current
  resolverAt : ∀ place ≤ bound, engine.resolverAt (place + offset) = other.resolverAt place

theorem patience_setResolver (engine : Engine) (place : Nat) (resolver : Resolver) :
    (engine.setResolver place resolver).patience = engine.patience := by
  rw [setResolver]
  split <;> rfl

/-- Replacing corresponding resolvers by the same one keeps engines alike. -/
theorem Alike.setResolver {offset bound : Nat} {engine other : Engine}
    (halike : engine.Alike offset bound other) {place : Nat} (hplace : place ≤ bound)
    (resolver : Resolver) :
    (engine.setResolver (place + offset) resolver).Alike offset bound
      (other.setResolver place resolver) where
  env := by rw [env_setResolver, env_setResolver, halike.env]
  patience := by rw [patience_setResolver, patience_setResolver, halike.patience]
  current := by
    rw [current_setResolver]
    exact halike.current
  otherCurrent := by
    rw [current_setResolver]
    exact halike.otherCurrent
  resolverAt found hfound := by
    have hcurrent := halike.current
    have hother := halike.otherCurrent
    rw [resolverAt_setResolver engine resolver (by omega) (by omega),
      resolverAt_setResolver other resolver (by omega) (by omega), halike.resolverAt found hfound]
    simp only [Nat.add_right_cancel_iff]

/-- A pull finds the same on both sides, as it uses its own resolver only. -/
theorem Alike.pull {offset bound : Nat} {engine other : Engine}
    (halike : engine.Alike offset bound other) {place : Nat} (hplace : place ≤ bound)
    (machine : Machine) :
    (engine.pull (place + offset) machine).2 = (other.pull place machine).2 ∧
      (engine.pull (place + offset) machine).1.Alike offset bound (other.pull place machine).1 := by
  simp only [Engine.pull, halike.resolverAt place hplace, halike.env, halike.patience]
  constructor
  · trivial
  · refine Alike.setResolver ?_ hplace _
    exact ⟨rfl, rfl, halike.current, halike.otherCurrent, halike.resolverAt⟩

end Engine

/-- The stream at a place that is higher by an offset. -/
def QueryStream.shift (offset : Nat) (stream : QueryStream) : QueryStream :=
  { stream with resolver := stream.resolver + offset }

namespace Engine

/-- A stream and its shifted twin give the same result and go on alike. -/
theorem Alike.next {offset bound : Nat} {engine other : Engine}
    (halike : engine.Alike offset bound other) {stream : QueryStream}
    (hopened : stream.resolver ≤ bound) :
    (engine.next (stream.shift offset)).2.1 = (other.next stream).2.1.shift offset ∧
      (engine.next (stream.shift offset)).2.2 = (other.next stream).2.2 ∧
      (other.next stream).2.1.resolver ≤ bound ∧
      (engine.next (stream.shift offset)).1.Alike offset bound (other.next stream).1 := by
  obtain ⟨place, machine, slot, done⟩ := stream
  obtain ⟨hpulled, hafter⟩ := halike.pull hopened machine
  rcases hpull : engine.pull (place + offset) machine with ⟨after, pulled⟩
  rcases hother : other.pull place machine with ⟨later, found, failure, result⟩
  rw [hpull, hother] at hpulled hafter
  obtain rfl : pulled = (found, failure, result) := hpulled
  simp only [Engine.next, QueryStream.shift, hpull, hother]
  cases done with
  | true => exact ⟨rfl, rfl, hopened, halike⟩
  | false =>
      cases slot with
      | some error => exact ⟨rfl, rfl, hopened, halike⟩
      | none => cases result <;> cases failure <;> exact ⟨rfl, rfl, hopened, hafter⟩

theorem Alike.insertAll {offset bound : Nat} {engine other : Engine}
    (halike : engine.Alike offset bound other) (statements : List Statement) :
    (engine.insertAll statements).Alike offset bound (other.insertAll statements) where
  env := by simp only [Engine.insertAll, halike.env]
  patience := halike.patience
  current := halike.current
  otherCurrent := halike.otherCurrent
  resolverAt := halike.resolverAt

theorem current_reconfigured (engine : Engine) (maxDepth : Option Nat) :
    (engine.reconfigured maxDepth).current = engine.current + 1 :=
  List.length_append

/-- A reconfiguration of one side is not seen by the streams that were opened before it. -/
theorem Alike.reconfigured {offset bound : Nat} {engine other : Engine}
    (halike : engine.Alike offset bound other) (maxDepth : Option Nat) :
    (engine.reconfigured maxDepth).Alike offset bound other where
  env := halike.env
  patience := halike.patience
  current := by
    rw [current_reconfigured]
    exact Nat.le_succ_of_le halike.current
  otherCurrent := halike.otherCurrent
  resolverAt place hplace := by
    have hcurrent := halike.current
    rw [resolverAt_reconfigured _ _ (by omega)]
    exact halike.resolverAt place hplace

/-- New queries run on the same resolver as before, under the same limit. -/
structure KeepsResolver (earlier later : Engine) : Prop where
  current : later.current = earlier.current
  maxDepth : later.resolver.maxDepth = earlier.resolver.maxDepth

theorem KeepsResolver.refl (engine : Engine) : engine.KeepsResolver engine := ⟨rfl, rfl⟩

theorem KeepsResolver.trans {first second third : Engine} (hfirst : first.KeepsResolver second)
    (hsecond : second.KeepsResolver third) : first.KeepsResolver third :=
  ⟨hsecond.current.trans hfirst.current, hsecond.maxDepth.trans hfirst.maxDepth⟩

/-- A pull uses up fresh names but leaves the limit. -/
theorem maxDepth_pull (engine : Engine) (place : Nat) (machine : Machine) :
    (engine.pull place machine).1.resolver.maxDepth = engine.resolver.maxDepth := by
  simp only [Engine.pull, Engine.setResolver]
  split
  · rfl
  · next hplace =>
      simp only [resolverAt, List.getElem?_eq_none (Nat.le_of_not_lt hplace)]
      rfl

theorem keepsResolver_next (engine : Engine) (stream : QueryStream) :
    engine.KeepsResolver (engine.next stream).1 := by
  obtain ⟨_, _, _, hnext⟩ | ⟨_, _, _, hnext⟩ := engine.next_eq_or stream
  · rw [hnext]
    exact .refl engine
  · rw [hnext]
    exact ⟨current_pull _ _ _, maxDepth_pull _ _ _⟩

theorem resolverAt_current (engine : Engine) :
    engine.resolverAt engine.current = engine.resolver := by
  simp [resolverAt, current]

/-- Engines of which the first has more resolvers that are out of use, and the
others are the same. -/
structure Twin (offset : Nat) (engine other : Engine) : Prop where
  alike : engine.Alike offset other.current other
  current : engine.current = other.current + offset

namespace Twin

variable {offset : Nat} {engine other : Engine} (htwin : engine.Twin offset other)
include htwin

theorem resolver : engine.resolver = other.resolver := by
  have hsame := htwin.alike.resolverAt other.current (Nat.le_refl _)
  rwa [← htwin.current, resolverAt_current, resolverAt_current] at hsame

theorem query (goals : Query) : engine.query goals = (other.query goals).shift offset := by
  rw [Engine.query, htwin.current]
  rfl

theorem insertAll (statements : List Statement) :
    (engine.insertAll statements).Twin offset (other.insertAll statements) :=
  ⟨htwin.alike.insertAll statements, htwin.current⟩

/-- Twins stay twins while their streams go on. -/
theorem next {stream : QueryStream} (hopened : stream.resolver ≤ other.current) :
    (engine.next (stream.shift offset)).1.Twin offset (other.next stream).1 := by
  obtain ⟨_, _, _, hafter⟩ := htwin.alike.next hopened
  have hengine := (engine.keepsResolver_next (stream.shift offset)).current
  have hother := (other.keepsResolver_next stream).current
  constructor
  · rw [hother]
    exact hafter
  · rw [hengine, hother]
    exact htwin.current

theorem reconfigured (maxDepth : Option Nat) :
    (engine.reconfigured maxDepth).Twin offset (other.reconfigured maxDepth) := by
  have hcurrent := htwin.current
  have hgrows := current_reconfigured engine maxDepth
  have hotherGrows := current_reconfigured other maxDepth
  refine ⟨⟨htwin.alike.env, htwin.alike.patience, by omega, Nat.le_refl _, ?_⟩, by omega⟩
  intro place hplace
  rcases Nat.lt_or_eq_of_le hplace with hlt | rfl
  · rw [resolverAt_reconfigured _ _ (by omega), resolverAt_reconfigured _ _ (by omega)]
    exact htwin.alike.resolverAt place (by omega)
  · have hlast : (other.reconfigured maxDepth).current + offset =
        (engine.reconfigured maxDepth).current := by omega
    rw [hlast, resolverAt_current, resolverAt_current, Engine.reconfigured,
      Engine.reconfigured, htwin.resolver]

end Twin

end Engine

end Horn
