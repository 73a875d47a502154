import Offside.Host.Sample

namespace Offside.Host

/-- What natives give back, or keep, has `P` if all does that they are given. -/
def Preserves (host : Host) (P : Value → Prop) : Prop :=
  ∀ q, (∀ v ∈ q.arguments, P v) → (∀ v ∈ q.memory, P v) →
    (∀ v ∈ (host.call q).memory, P v) ∧ ∀ v, (host.call q).result = .ok v → P v

variable {P : Value → Prop}

theorem absolute?_preserves (hint : ∀ n, P (.int n)) (hfloat : ∀ x, P (.float x)) {v w : Value}
    (h : absolute? v = some w) : P w := by
  unfold absolute? at h
  split at h
  · split at h
    · cases h
    · cases h
      exact hint _
  · cases h
    exact hfloat _
  · cases h

theorem refuse_preserves {q : Request} {e : HostError} (hmemory : ∀ v ∈ q.memory, P v) :
    (∀ v ∈ (q.refuse e).memory, P v) ∧ ∀ v, (q.refuse e).result = .ok v → P v := by
  refine ⟨hmemory, fun v hv => ?_⟩
  cases hv

theorem sample_preserves (hint : ∀ n, P (.int n)) (hfloat : ∀ x, P (.float x))
    (hstring : ∀ s, P (.string s)) : sample.Preserves P := by
  intro q harguments hmemory
  show (∀ v ∈ (sampleReply q).memory, P v) ∧ ∀ v, (sampleReply q).result = .ok v → P v
  unfold sampleReply
  split
  · refine ⟨hmemory, fun v hv => ?_⟩
    cases hv
    exact hstring _
  · unfold absolute
    split
    · split
      · next v w hw =>
        refine ⟨hmemory, fun u hu => ?_⟩
        cases hu
        exact absolute?_preserves hint hfloat hw
      · exact refuse_preserves hmemory
    · exact refuse_preserves hmemory
  · unfold identity
    split
    · next v hq =>
      refine ⟨hmemory, fun w hw => ?_⟩
      cases hw
      exact harguments v (by rw [hq]; exact List.mem_cons_self)
    · exact refuse_preserves hmemory
  · refine ⟨hmemory, fun v hv => ?_⟩
    cases hv
    exact hint _
  · exact refuse_preserves hmemory
  · exact refuse_preserves hmemory

end Offside.Host
