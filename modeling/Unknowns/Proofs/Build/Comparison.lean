import Unknowns.Proofs.Build.AllOrNone
import Unknowns.Proofs.Field.Fingerprint
import Unknowns.Proofs.Manager.Registrations

/-!
# Registrations are compared

Ranks that compare their fields exchange no names, only fingerprints.  What this
finds, and what it means:

* `Crew.run_of_fingerprint_ne`: ranks with different fingerprints keep all ranks from
  building, and where all are ready each rank is told the same rank, whose fields are
  indeed not those of rank 0;
* `Registry.Inverse.eq_of_names_eq`: a registry that registrations make is
  determined by its names, and so by its bytes;
* `Crew.differences_reported`: a difference in one byte is always found.
-/

namespace Unknowns

namespace Registry

variable {r s : Registry}

/-- A registry to which any names have been registered. -/
inductive Registered : Registry → Prop
  | empty : Registered ∅
  | register {r r' : Registry} {name : String} {num : Nat} (h : Registered r)
      (hr : r.register name = .ok (num, r')) : Registered r'

theorem Registered.inverse (h : r.Registered) : r.Inverse := by
  induction h with
  | empty => exact fun _ _ => ⟨nofun, nofun⟩
  | register _ hr ih => exact (ih.register hr).1

/-- **The names tell the numbers**, and so the whole registry. -/
theorem Inverse.eq_of_names_eq (hr : r.Inverse) (hs : s.Inverse) (h : r.names = s.names) :
    r = s := by
  have hnum : ∀ name, r.byName.get? name = s.byName.get? name := fun name =>
    Option.ext fun num => by
      have hname : r.name? num = s.name? num := by rw [name?, name?, h]
      exact (hr name num).trans (hname ▸ (hs name num).symm)
  have hbyName := Table.ext_get? hnum
  cases r
  cases s
  simp_all

end Registry

namespace Crew

open World Negotiation

variable {c : Crew} {r s : Nat}

/-- Of two different fingerprints at least one is not that of rank 0. -/
theorem exists_differing (hr : r < c.count) (hs : s < c.count)
    (hne : c.fingerprint r ≠ c.fingerprint s) :
    ∃ d ≤ max r s, differing? c.count c.fingerprint = some d := by
  cases hd : differing? c.count c.fingerprint with
  | none =>
    have hsame := differing?_eq_none_iff.1 hd
    exact absurd ((hsame r hr).trans (hsame s hs).symm) hne
  | some d =>
    refine ⟨d, ?_, rfl⟩
    obtain ⟨-, -, hlowest⟩ := differing?_eq_some_iff.1 hd
    by_contra hlt
    have hr' := hlowest r (by omega)
    have hs' := hlowest s (by omega)
    exact hne (hr'.trans hs'.symm)

/-- Where all ranks are ready, each is told the rank that the comparison finds. -/
theorem agreed_of_differing (hroom : c.count * Record.width Status < memoryBound)
    (hcheck : c.config.checkRegistrations = true) (hnil : c.failing = []) {d k : Nat}
    (hd : differing? c.count c.fingerprint = some d) (hk : k < c.count) :
    c.agreed k = .error (.registrationMismatch d) := by
  have hown : c.outcome k = .ok () := by
    cases hphases : c.phases k with
    | ok p => rw [outcome, hphases, Except.map]
    | error e =>
      have hmem := mem_failing.2 ⟨hk, e, hphases⟩
      rw [hnil] at hmem
      cases hmem
  have hfailed : failed c.count c.outcome = [] := hnil
  rw [agreed, agreed_eq hroom, hown]
  simp only [hfailed, hcheck, hd]
  rfl

/-- **Different fingerprints keep all ranks from building**, whatever else they bring. -/
theorem not_ready_of_fingerprint_ne (hcheck : c.config.checkRegistrations = true)
    (hr : r < c.count) (hs : s < c.count) (hne : c.fingerprint r ≠ c.fingerprint s) {k : Nat}
    (hk : k < c.count) : c.agreed k ≠ .ok () := by
  obtain ⟨d, -, hd⟩ := exists_differing hr hs hne
  intro hagreed
  have hnot := ((agreed_eq_ok_iff hk).1 hagreed).2.2 hcheck
  rw [hd] at hnot
  cases hnot

/-- If no rank is stopped, the build ends at all of them. -/
theorem run_of_fingerprint_ne (hsteady : c.Steady) (hcheck : c.config.checkRegistrations = true)
    (hr : r < c.count) (hs : s < c.count) (hne : c.fingerprint r ≠ c.fingerprint s) :
    World.run [] ((List.range c.count).map fun k => (c.manager k).build) =
        some ((List.range c.count).map c.report, []) ∧
      ∀ k < c.count, (c.report k).outcome ≠ .ok () := by
  have hnone := fun k hk => not_ready_of_fingerprint_ne (k := k) hcheck hr hs hne hk
  have hready : ¬c.Ready := fun hready => hnone r hr (hready r hr)
  have hbuild := inStep_build_of_proceed hsteady (inStep_proceed_of_not_ready hready)
  refine ⟨hbuild.run_eq, fun k hk => ?_⟩
  rw [outcome_report]
  exact hnone k hk

/-- If a rank is stopped, those that wait for it do not end. -/
theorem outcome_ne_ok_of_fingerprint_ne (hcheck : c.config.checkRegistrations = true)
    (hr : r < c.count) (hs : s < c.count) (hne : c.fingerprint r ≠ c.fingerprint s)
    {reports : List Manager.Report} {box : Mailbox}
    (hrun : World.run [] ((List.range c.count).map fun k => (c.manager k).build) =
      some (reports, box)) : ∀ report ∈ reports, report.outcome ≠ .ok () := by
  by_cases hsteady : c.Steady
  · obtain ⟨hreports, hnone⟩ := run_of_fingerprint_ne hsteady hcheck hr hs hne
    obtain ⟨rfl, -⟩ := Prod.mk.inj (Option.some.inj (hreports.symm.trans hrun))
    intro report hreport
    obtain ⟨k, hk, rfl⟩ := List.mem_map.1 hreport
    exact hnone k (List.mem_range.1 hk)
  · exact outcome_ne_ok_of_not_steady hsteady hrun

/-- Where all ranks are ready, none was stopped. -/
theorem steady_of_failing_eq_nil (hnil : c.failing = []) : c.Steady := by
  intro r hr
  cases hphases : c.phases r with
  | ok p => rfl
  | error e =>
    have hmem := mem_failing.2 ⟨hr, e, hphases⟩
    rw [hnil] at hmem
    cases hmem

/-- **A difference in one byte is always found.**  Registries whose bytes differ in a single place
have different fingerprints.  So if the fields of two ranks differ like that, in a world of any number
of ranks that compare their fields, no rank builds: if none is stopped by its own phases, all of them
end with an error, and if all are ready, all are told the same rank, whose fields are not those of
rank 0.

No name has the byte that ends a name, so the bytes tell the names in their order, and of a registry
that registrations make they tell everything. -/
theorem differences_reported :
    (∀ r s : Registry, Registry.OneByteApart r.bytes s.bytes → r.fingerprint ≠ s.fingerprint) ∧
    (∀ c : Crew, c.config.checkRegistrations = true → ∀ r < c.count, ∀ s < c.count,
      Registry.OneByteApart (c.manager r).registry.bytes (c.manager s).registry.bytes →
        (∀ reports box,
          World.run [] ((List.range c.count).map fun k => (c.manager k).build) =
            some (reports, box) → ∀ report ∈ reports, report.outcome ≠ .ok ()) ∧
        (c.failing = [] → c.Steady) ∧
        (c.Steady → ∃ report : Nat → Manager.Report,
          World.run [] ((List.range c.count).map fun k => (c.manager k).build) =
            some ((List.range c.count).map report, []) ∧
          (∀ k < c.count, (report k).outcome ≠ .ok ()) ∧
          (c.count * Record.width Status < memoryBound → c.failing = [] →
            ∃ d ≤ max r s, (c.manager d).registry.names ≠ (c.manager 0).registry.names ∧
              ∀ k < c.count, (report k).outcome = .error (.registrationMismatch d)))) ∧
    (∀ name : String, Registry.terminator ∉ name.toUTF8.toList) ∧
    (∀ r s : Registry, r.bytes = s.bytes →
      r.names = s.names ∧ (r.Registered → s.Registered → r = s)) := by
  refine ⟨fun r s => Registry.fingerprint_ne_of_oneByteApart, ?_,
    Registry.terminator_not_mem_toUTF8, fun r s hbytes => ?_⟩
  · intro c hcheck r hr s hs hapart
    have hne : c.fingerprint r ≠ c.fingerprint s := Registry.fingerprint_ne_of_oneByteApart hapart
    refine ⟨fun reports box hrun => outcome_ne_ok_of_fingerprint_ne hcheck hr hs hne hrun,
      steady_of_failing_eq_nil, fun hsteady => ?_⟩
    obtain ⟨hrun, hnone⟩ := run_of_fingerprint_ne hsteady hcheck hr hs hne
    refine ⟨c.report, hrun, hnone, fun hroom hnil => ?_⟩
    obtain ⟨d, hle, hd⟩ := exists_differing hr hs hne
    refine ⟨d, hle, fun hnames => ?_, fun k hk => ?_⟩
    · refine (differing?_eq_some_iff.1 hd).2.1 ?_
      rw [fingerprint, fingerprint, Registry.fingerprint, Registry.bytes, hnames]
      rfl
    · rw [outcome_report, agreed_of_differing hroom hcheck hnil hd hk]
  · have hnames := Registry.names_eq_of_bytes_eq hbytes
    exact ⟨hnames, fun hr hs => hr.inverse.eq_of_names_eq hs.inverse hnames⟩

end Crew

/-! ### Two bars with fields of different names -/

namespace Bars

/-- The name of the field of rank `r`. -/
def fieldOf (r : Nat) : String := if r = 0 then "u" else "v"

/-- Two bars that share a node, each with a field of its own name. -/
def strangers : Crew :=
  { crew 2 with
    manager := fun r =>
      { manager 2 r with registry := ⟨Table.tabulate [fieldOf r] fun _ => 0, [fieldOf r]⟩ }
    checked := .inl fun _ _ => rfl }

end Bars

namespace Crew

/-- The two names differ in their only byte, and both ranks are told that rank 1 differs. -/
theorem differences_reported_strangers :
    Registry.OneByteApart (Bars.strangers.manager 0).registry.bytes
        (Bars.strangers.manager 1).registry.bytes ∧
      Bars.strangers.failing = [] ∧
      ∃ report : Nat → Manager.Report,
        World.run [] [(Bars.strangers.manager 0).build, (Bars.strangers.manager 1).build] =
          some ([report 0, report 1], []) ∧
        (report 0).outcome = .error (.registrationMismatch 1) ∧
        (report 1).outcome = .error (.registrationMismatch 1) := by
  have hzero : (Bars.strangers.manager 0).registry.bytes = [0x75, 0xff] := by decide +kernel
  have hone : (Bars.strangers.manager 1).registry.bytes = [0x76, 0xff] := by decide +kernel
  have hapart : Registry.OneByteApart (Bars.strangers.manager 0).registry.bytes
      (Bars.strangers.manager 1).registry.bytes := by
    rw [hzero, hone]
    refine ⟨rfl, 0, by decide, fun i hi => ?_⟩
    rcases i with _ | _ | i
    · rfl
    · exact absurd rfl hi
    · exact absurd rfl hi
  have hnil : Bars.strangers.failing = [] := rfl
  obtain ⟨-, hsteady, hends⟩ := differences_reported.2.1 Bars.strangers rfl 0 (by decide) 1
    (by decide) hapart
  obtain ⟨report, hrun, -, htold⟩ := hends (hsteady hnil)
  obtain ⟨d, hle, hnames, hall⟩ := htold (by decide) hnil
  have hd : d = 1 := by
    have hne : d ≠ 0 := fun he => hnames (he ▸ rfl)
    have hle : d ≤ 1 := hle
    omega
  subst hd
  exact ⟨hapart, hnil, report, hrun, hall 0 (by decide), hall 1 (by decide)⟩

end Crew

end Unknowns
