import Unknowns.Proofs.Build.Crew
import Unknowns.Proofs.Negotiation.Alone

/-!
# A build of a rank that is alone

After the phases that concern one rank only, nothing can go wrong for a rank that has
nobody to talk to: it agrees with itself, all its keys get numbers, and it has no
ghosts of which others would have to know.  So such a build succeeds exactly if
these phases do, and fails with their error (`Manager.outcome_alone`).
-/

namespace Unknowns

/-- **A rank that is alone agrees with itself.** -/
theorem alone_agreeReady (own : Except Error Unit) (fingerprint : UInt64) (check : Bool) :
    (agreeReady Seat.solitary own fingerprint check).run.alone = own := by
  have hroom : 1 * Record.width Status < memoryBound := by decide
  have hagreed := Rounds.Quiet.alone_eq (quiet_agreeReady own fingerprint check)
    (Negotiation.inStep_agreeReady 1 (fun _ => own) (fun _ => fingerprint) fun _ => check)
  rw [agreeReady_solitary]
  refine hagreed.trans ((Negotiation.agreed_eq hroom 0).trans ?_)
  cases own with
  | error e => rfl
  | ok _ =>
    have hfailed : Negotiation.failed 1 (fun _ => (.ok () : Except Error Unit)) = [] := rfl
    have hdiffering : Negotiation.differing? 1 (fun _ => fingerprint) = none :=
      Negotiation.differing?_eq_none_iff.2 fun _ _ => rfl
    simp only [hfailed, hdiffering, ne_eq, not_true_eq_false, if_false, ite_self]

namespace Manager

variable {m : Manager} {mesh : Mesh} {tags : Tags} {p : Prepared}

theorem exists_finish {n : Numbering}
    (h : ∀ ks ∈ p.elementKeys, ∀ k ∈ ks, ∃ g, n.gid? k = some g) :
    ∃ b, (finish tags Seat.solitary p n).run.alone = .ok b := by
  have hgids : (p.elementKeys.mapM fun ks => ks.mapM n.gidOf) =
      .ok (p.elementKeys.map fun ks => ks.map fun k => (n.gid? k).getD 0) := by
    refine mapM_eq_ok fun ks hks => mapM_eq_ok fun k hk => ?_
    obtain ⟨g, hg⟩ := h ks hks k hk
    rw [Numbering.gidOf, hg]
    rfl
  rw [finish, hgids]
  exact ⟨_, rfl⟩

/-- **The completion phase succeeds.** -/
theorem exists_complete (tags : Tags) (mesh : Mesh) (p : Prepared) :
    ∃ b log, (complete SubEntity.home tags ⟨mesh, Seat.solitary⟩ p).alone = (.ok b, log) := by
  have hascending := pairwise_ascending p.elementKeys.flatten
  obtain ⟨n, hn, hgids⟩ := Negotiation.exists_negotiate_alone tags mesh.entityOwner
    (fun e => e.home_lt Nat.one_pos) hascending
  obtain ⟨b, hb⟩ : ∃ b, (finish tags Seat.solitary p n).run.alone = .ok b :=
    exists_finish fun ks hks k hk => hgids k (mem_ascending.2 (List.mem_flatten.2 ⟨ks, hks, hk⟩))
  rw [complete, Rounds.alone_bind, hn]
  dsimp only
  rw [Rounds.alone_bind, hb]
  exact ⟨b, _, rfl⟩

/-- **A build of a rank that is alone** comes to what its own phases come to. -/
theorem outcome_alone (h : m.binding = some ⟨mesh, Seat.solitary⟩) :
    m.build.alone.outcome = (m.prepare ⟨mesh, Seat.solitary⟩).1.map fun _ => () := by
  rw [build_eq_ite h]
  split
  · rfl
  rw [Rounds.alone_bind, alone_agreeReady]
  unfold proceed
  cases (m.prepare ⟨mesh, Seat.solitary⟩).1 with
  | error e => rfl
  | ok p =>
    obtain ⟨b, log, hcomplete⟩ := exists_complete m.config.tags mesh p
    show Report.outcome (Rounds.alone (complete _ _ _ p >>= _)) = _
    rw [Rounds.alone_bind, hcomplete]
    rfl

end Manager

end Unknowns
