import Treeless.PMap.Runs

/-!
# Client/Replica — the pair of one key on a holder

A holder serves requests about many keys.  What it has of one key is what was written under it: the
value its index shows, and every value that `Get` can show, is that of a record of the key.
-/

namespace Treeless

namespace PMap

variable {hash : Bytes → UInt64} {c c' : PMap} {log : List Record} {m : Dict} {key v : Bytes}

/-- **What `Get` shows of a key is a record of the key**, whatever the hash word. -/
theorem Denotes.mem_of_get (h : c.Denotes hash log m) {w : UInt32}
    (hx : c.get w key = .ok (some v)) : ⟨key, v⟩ ∈ log := by
  rcases h.ordered.get_ends w key with hnone | ⟨i, -, -, -, r, hr, rfl, hsome⟩
  · cases hnone.symm.trans hx
  · obtain rfl : r.val = v := Option.some.inj (Except.ok.inj (hsome.symm.trans hx))
    exact mem_of_recordAt hr

/-- A store whose records of the key all hold values of `P`. -/
def Replica (key : Bytes) (P : Bytes → Prop) (c : PMap) : Prop :=
  ∃ L : Ledger, c.Refines fnv1a64 L ∧ ∀ r ∈ L.log, r.key = key → P r.val

theorem replica_new {P : Bytes → Prop} (path : String) (size : ℕ) :
    Replica key P (new path size) :=
  ⟨Ledger.new size, refines_new fnv1a64 path size, fun _ hr => (nomatch hr)⟩

namespace Replica

variable {P P' : Bytes → Prop}

theorem mono (h : Replica key P c) (hP : ∀ v, P v → P' v) : Replica key P' c := by
  obtain ⟨L, hL, hlog⟩ := h
  exact ⟨L, hL, fun r hr hk => hP _ (hlog r hr hk)⟩

theorem of_get (h : Replica key P c) {w : UInt32} (hx : c.get w key = .ok (some v)) : P v := by
  obtain ⟨L, hL, hlog⟩ := h
  exact hlog _ (hL.toDenotes.mem_of_get hx) rfl

end Replica

end PMap

/-- A `CAS` that returned no error has passed its tests. -/
theorem Ledger.casTest_of_answer {L : Ledger} {full : Bool} {k v : Bytes}
    (h : L.answer full (.cas k v) = none) : casTest (L.dict k) v = none := by
  rw [answer] at h
  split at h
  · cases h
  split at h
  · cases h
  split at h
  · cases h
  · assumption

namespace PMap

variable {c c' : PMap} {key : Bytes} {P : Bytes → Prop}

/-- **A request to a holder.**  The dictionary follows the reference map, a `CAS` with no error has
passed its tests, and all that is written under the key satisfies `P` if what the request writes
does. -/
theorem Replica.apply (h : Replica key P c) {op : Op} {e : Option Error}
    (hs : Step fnv1a64 c (op, e) c')
    (hP : e = none → op.key = key → P op.record.val) :
    Replica key P c' ∧ c'.value = Dict.step c.value (op, e)
      ∧ ∀ k v, op = .cas k v → e = none → Ledger.casTest (c.value k) v = none := by
  obtain ⟨L, hL, hlog⟩ := h
  obtain ⟨hans, hL', -⟩ := hs.refines hL
  refine ⟨⟨L.apply fnv1a64 (op, e), hL', fun r hr hk => ?_⟩, ?_, fun k v hcas he => ?_⟩
  · rcases (hs.effect hL).mem_log hr with hold | ⟨he, rfl⟩
    · exact hlog r hold hk
    · refine hP he (Eq.trans ?_ hk)
      cases op <;> rfl
  · rw [hL'.value_eq, Ledger.dict_apply, hL.value_eq]
  · subst hcas he
    rw [hL.value_eq]
    exact Ledger.casTest_of_answer hans.symm

end PMap

end Treeless
