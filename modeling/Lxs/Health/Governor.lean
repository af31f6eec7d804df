import Mathlib.Data.List.Chain
import Mathlib.Data.List.Destutter

/-!
# The audit trail of the governor

Every tick the rules dictate a posture for the snapshot, and a change of posture is recorded and applied. The trail is the
list of all decisions, one for each tick at which the dictated posture changes; the governor keeps the end of it.
-/

namespace Lxs.Health

structure GovRule (σ π : Type) where
  posture : π
  reason : String
  /-- `Match`, `none` when it is `nil` -/
  test : Option (σ → Bool)

structure GovDecision (π : Type) where
  seq : Int64
  source : π
  target : π
  reason : String
  time : ℤ

/-- The governor of snapshots `σ` and postures `π`. -/
structure Governor (σ π : Type) where
  rules : List (GovRule σ π)
  default : π
  maxAudit : Int64
  /-- `none` until it has started -/
  cur : Option π := none
  audit : List (GovDecision π) := []
  seq : Int64 := 0
  /-- the calls of `Apply`, the newest last -/
  applied : List π := []

namespace Governor

variable {σ π : Type} {g : Governor σ π} {all : List (GovDecision π)}

/-- The posture the rules dictate, and why. The first match wins. -/
def dictates (g : Governor σ π) (s : σ) : π × String :=
  match g.rules.find? (·.test.any (· s)) with
  | some r => (r.posture, r.reason)
  | none => (g.default, "no rule matched — default posture")

def max (g : Governor σ π) : ℕ := if g.maxAudit ≤ 0 then 256 else g.maxAudit.toInt.toNat

def record (g : Governor σ π) (source target : π) (reason : String) (now : ℤ) : Governor σ π :=
  let audit := g.audit ++ [⟨g.seq + 1, source, target, reason, now⟩]
  { g with seq := g.seq + 1, audit := audit.drop (audit.length - g.max) }

/-- A decision takes effect, is recorded and applied. -/
def adopt (g : Governor σ π) (source target : π) (reason : String) (now : ℤ) : Governor σ π :=
  { g.record source target reason now with cur := some target, applied := g.applied ++ [target] }

def evaluate [DecidableEq π] (g : Governor σ π) (s : σ) (now : ℤ) : Governor σ π :=
  match g.cur with
  | none => g.adopt (g.dictates s).1 (g.dictates s).1 ("initial posture: " ++ (g.dictates s).2) now
  | some cur => if (g.dictates s).1 = cur then g else g.adopt cur (g.dictates s).1 (g.dictates s).2 now

def run [DecidableEq π] (g : Governor σ π) (ticks : List (σ × ℤ)) : Governor σ π :=
  ticks.foldl (fun g t => g.evaluate t.1 t.2) g

/-- The ticks at which another posture is dictated than before. -/
def changes [DecidableEq π] (g : Governor σ π) (ticks : List (σ × ℤ)) : List (σ × ℤ) :=
  ticks.destutter fun t u => (g.dictates u.1).1 ≠ (g.dictates t.1).1

/-- `all` are the decisions so far: numbered in 64 bits, each from where the one before it led to another posture. -/
structure Trail (g : Governor σ π) (all : List (GovDecision π)) : Prop where
  audit : g.audit = all.drop (all.length - g.max)
  seq : g.seq = .ofNat all.length
  numbered : all.map (·.seq) = (List.range' 1 all.length).map .ofNat
  chain : all.IsChain fun d e => e.source = d.target ∧ e.target ≠ e.source
  applied : g.applied = all.map (·.target)
  cur : g.cur = all.getLast?.map (·.target)

theorem Trail.adopt (h : Trail g all) {source target : π} (hstep : ∀ d ∈ all.getLast?, source = d.target ∧ target ≠ source)
    (reason : String) (now : ℤ) :
    Trail (g.adopt source target reason now) (all ++ [⟨g.seq + 1, source, target, reason, now⟩]) where
  audit := by
    -- what was cut off before stays cut off
    rw [Governor.adopt, record, h.audit, ← List.drop_append_of_le_length (Nat.sub_le _ _), List.drop_drop]
    simp only [List.length_append, List.length_drop, List.length_singleton, max]
    congr 1
    omega
  seq := by simp [Governor.adopt, record, h.seq, Int64.ofNat_add]
  numbered := by
    rw [List.map_append, h.numbered, h.seq, List.length_append, List.length_singleton, List.range'_1_concat, List.map_append,
      List.map_singleton, List.map_singleton, Nat.add_comm 1, Int64.ofNat_add]
    rfl
  chain := List.isChain_append.2 ⟨h.chain, .singleton _, by simpa using hstep⟩
  applied := by simp [Governor.adopt, h.applied]
  cur := by simp [Governor.adopt]

variable [DecidableEq π]

theorem evaluate_spec (g : Governor σ π) (s : σ) (now : ℤ) :
    (g.evaluate s now).cur = some (g.dictates s).1 ∧ (g.evaluate s now).dictates = g.dictates := by
  rw [evaluate]
  split
  · exact ⟨rfl, rfl⟩
  case h_2 cur hcur =>
    split_ifs with heq
    · exact ⟨by rw [hcur, heq], rfl⟩
    · exact ⟨rfl, rfl⟩

theorem dictates_run (g : Governor σ π) (ticks : List (σ × ℤ)) : (g.run ticks).dictates = g.dictates := by
  induction ticks generalizing g with
  | nil => rfl
  | cons t ticks ih => exact (ih _).trans (g.evaluate_spec t.1 t.2).2

theorem cur_run (g : Governor σ π) {ticks : List (σ × ℤ)} {t : σ × ℤ} (ht : t ∈ ticks.getLast?) :
    (g.run ticks).cur = some (g.dictates t.1).1 := by
  obtain ⟨past, rfl⟩ := List.getLast?_eq_some_iff.1 ht
  rw [run, List.foldl_concat, ← dictates_run g past]
  exact ((g.run past).evaluate_spec t.1 t.2).1

/-- From a tick on, the decisions are those of the later ticks at which the dictated posture changes. -/
theorem Trail.run (h : Trail g all) {dictates : σ → π × String} (hd : g.dictates = dictates) {last : σ × ℤ}
    (hcur : g.cur = some (dictates last.1).1) (ticks : List (σ × ℤ)) :
    ∃ new later, Trail (g.run ticks) (all ++ new) ∧
      ticks.destutter' (fun t u => (dictates u.1).1 ≠ (dictates t.1).1) last = last :: later ∧
      new.map (fun d => ((d.target, d.reason), d.time)) = later.map fun t => (dictates t.1, t.2) := by
  induction ticks generalizing g all last with
  | nil => exact ⟨[], [], by rwa [List.append_nil], rfl, rfl⟩
  | cons t ticks ih =>
    rw [Governor.run, List.foldl_cons]
    by_cases heq : (dictates t.1).1 = (dictates last.1).1
    · have hsame : g.evaluate t.1 t.2 = g := by rw [evaluate, hcur]; exact if_pos (by rw [hd, heq])
      rw [hsame, List.destutter'_cons_neg _ (not_not.2 heq)]
      exact ih h hd hcur
    · have hadopt : g.evaluate t.1 t.2 = g.adopt (dictates last.1).1 (dictates t.1).1 (dictates t.1).2 t.2 := by
        rw [evaluate, hcur, hd]
        exact if_neg heq
      have hstep : ∀ d ∈ all.getLast?, (dictates last.1).1 = d.target ∧ (dictates t.1).1 ≠ (dictates last.1).1 := by
        intro d hlast
        have hc := h.cur
        rw [Option.mem_def.1 hlast, hcur] at hc
        exact ⟨Option.some.inj hc, heq⟩
      obtain ⟨new, later, hnew, hlater, hmap⟩ := ih (h.adopt hstep (dictates t.1).2 t.2) hd rfl
      rw [hadopt, List.destutter'_cons_pos _ heq, hlater]
      refine ⟨_ :: new, t :: later, by rwa [List.append_assoc] at hnew, rfl, ?_⟩
      rw [List.map_cons, List.map_cons, hmap]

/-- **The audit is the end of the whole trail**, after any snapshots. The decisions of the trail are those dictated at the
ticks at which the posture changes, the first of them marked. `Apply` was called with exactly the postures of the trail,
and the last of them is the one that the rules dictate for the last snapshot. -/
theorem audit_trail (rules : List (GovRule σ π)) (default : π) (maxAudit : Int64) (ticks : List (σ × ℤ)) :
    let start : Governor σ π := { rules, default, maxAudit }
    ∃ all, Trail (start.run ticks) all ∧
      all.map (fun d => ((d.target, d.reason), d.time)) =
        ((start.changes ticks).map fun t => (start.dictates t.1, t.2)).modifyHead
          (fun e => ((e.1.1, "initial posture: " ++ e.1.2), e.2)) ∧
      ∀ t ∈ ticks.getLast?, all.getLast?.map (·.target) = some (start.dictates t.1).1 := by
  intro start
  have hstart : Trail start [] := ⟨List.drop_nil.symm, rfl, rfl, .nil, rfl, rfl⟩
  suffices h : ∃ all, Trail (start.run ticks) all ∧ all.map (fun d => ((d.target, d.reason), d.time)) =
      ((start.changes ticks).map fun t => (start.dictates t.1, t.2)).modifyHead
        (fun e => ((e.1.1, "initial posture: " ++ e.1.2), e.2)) by
    obtain ⟨all, htrail, hmap⟩ := h
    exact ⟨all, htrail, hmap, fun t ht => htrail.cur.symm.trans (start.cur_run ht)⟩
  cases ticks with
  | nil => exact ⟨[], hstart, rfl⟩
  | cons t ticks =>
    -- the first tick decides in any case
    have hfirst := @Trail.adopt σ π start [] hstart (start.dictates t.1).1 (start.dictates t.1).1 (by simp)
      ("initial posture: " ++ (start.dictates t.1).2) t.2
    obtain ⟨new, later, hnew, hlater, hmap⟩ := @Trail.run σ π _ _ _ hfirst start.dictates rfl t rfl ticks
    refine ⟨_, hnew, ?_⟩
    rw [changes, List.destutter_cons', hlater, List.nil_append, List.singleton_append, List.map_cons, hmap]
    rfl

end Governor

end Lxs.Health
