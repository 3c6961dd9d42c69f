import Unknowns.Proofs.Build.Crew

/-!
# Ranks that are stopped

A rank that its own phases stop ends at once and sends nothing.  The agreement is
the first thing for which the ranks need each other, so all those that get there
wait for it in vain (`run_eq_none_of_stopped`), and a build comes to an end only if
none of them gets there.  So it never comes to an end with which some rank could go
on (`outcome_ne_ok_of_not_steady`).
-/

namespace Unknowns

namespace Crew

open World Negotiation

variable {c : Crew}

theorem mem_builds {r : Nat} (hr : r < c.count) :
    (c.manager r).build ∈ (List.range c.count).map fun r => (c.manager r).build :=
  List.mem_map_of_mem (List.mem_range.2 hr)

/-- The statuses of all ranks have no room: a rank that is not stopped before ends here. -/
theorem outcome_of_not_room {r : Nat} (hr : r < c.count) (hsteady : stopped (c.phases r) = false)
    (hroom : ¬c.count * Record.width Status < memoryBound) :
    ∃ report, (c.manager r).build = .done report ∧ report.outcome ≠ .ok () := by
  have hreserve : reserve c.count (Record.width Status) = .error .outOfMemory := by
    rw [reserve, fits, if_neg (by simpa using hroom)]
  rw [build_eq hr hsteady, agreeReady_eq, count_seat hr, hreserve]
  exact ⟨_, rfl, nofun⟩

/-- **A rank that is not stopped waits for all others**, if there are any. -/
theorem build_eq_round {r : Nat} (hr : r < c.count) (hcount : 2 ≤ c.count)
    (hsteady : stopped (c.phases r) = false)
    (hroom : c.count * Record.width Status < memoryBound) :
    ∃ sends awaits next, (c.manager r).build = .round sends awaits next := by
  have hreserve := (reserve_eq_ok_iff c.count (Record.width Status)).2 hroom
  have hplace : ¬((Record.encode (Status.of (c.outcome r).isOk (c.fingerprint r))).length > 0 ∧
      (World.seat c.count r).count ≤ (World.seat c.count r).rank) := by
    rw [count_seat hr]
    exact fun h => absurd hr (Nat.not_lt.2 h.2)
  have htalks : ¬((World.seat c.count r).count = 1 ∨ (World.seat c.count r).serial) := by
    rw [count_seat hr]
    rintro (hone | hserial)
    · omega
    · cases hserial
  rw [build_eq hr hsteady, agreeReady_eq, gather, if_neg hplace, if_neg htalks, count_seat hr,
    hreserve]
  exact ⟨_, _, _, rfl⟩

/-- **A rank waits in vain for one that was stopped.** -/
theorem run_eq_none_of_stopped {r s : Nat} (hr : r < c.count) (hs : s < c.count)
    (hstopped : stopped (c.phases r) = true) (hsteady : stopped (c.phases s) = false)
    (hroom : c.count * Record.width Status < memoryBound) (box : Mailbox) :
    World.run box ((List.range c.count).map fun r => (c.manager r).build) = none := by
  have hne : r ≠ s := by
    rintro rfl
    rw [hstopped] at hsteady
    cases hsteady
  obtain ⟨sends, awaits, next, hround⟩ := build_eq_round hs (by omega) hsteady hroom
  cases hrun : World.run box ((List.range c.count).map fun r => (c.manager r).build) with
  | none => rfl
  | some result =>
    have hdone := eq_done_of_run hrun (build_eq_of_stopped hr hstopped ▸ mem_builds hr)
    obtain ⟨a, -, ha⟩ := List.mem_map.1 (hdone ▸ mem_builds hs)
    rw [hround] at ha
    cases ha

/-- **Where a rank is stopped, no rank builds.** -/
theorem outcome_ne_ok_of_not_steady (h : ¬c.Steady) {box box' : Mailbox}
    {reports : List Manager.Report}
    (hrun : World.run box ((List.range c.count).map fun r => (c.manager r).build) =
      some (reports, box')) : ∀ report ∈ reports, report.outcome ≠ .ok () := by
  obtain ⟨r, hr, hstopped⟩ : ∃ r < c.count, stopped (c.phases r) = true := by
    by_contra hnone
    exact h fun r hr => Bool.eq_false_iff.2 fun hstopped => hnone ⟨r, hr, hstopped⟩
  have hdone := eq_done_of_run hrun (build_eq_of_stopped hr hstopped ▸ mem_builds hr)
  intro report hreport
  obtain ⟨s, hs, hbuild⟩ := List.mem_map.1 (hdone ▸ List.mem_map_of_mem hreport)
  have hs := List.mem_range.1 hs
  cases hsteady : stopped (c.phases s) with
  | true =>
    rw [build_eq_of_stopped hs hsteady] at hbuild
    obtain rfl := Rounds.done.inj hbuild
    cases hphases : c.phases s with
    | ok p =>
      rw [hphases] at hsteady
      cases hsteady
    | error e =>
      show (c.phases s).map _ ≠ _
      rw [hphases]
      exact nofun
  | false =>
    by_cases hroom : c.count * Record.width Status < memoryBound
    · rw [run_eq_none_of_stopped hr hs hstopped hsteady hroom] at hrun
      cases hrun
    · obtain ⟨report', hreport', hne⟩ := outcome_of_not_room hs hsteady hroom
      obtain rfl := Rounds.done.inj (hbuild.symm.trans hreport')
      exact hne

end Crew

end Unknowns
