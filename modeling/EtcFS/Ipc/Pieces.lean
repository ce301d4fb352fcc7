import EtcFS.Ipc.Folding

/-!
# The extents a transaction puts

What holds of a write's new extents and of the pieces it leaves holds of all that is put.
-/

namespace EtcFS.Ipc

open EtcFS.Core Metadata Arena List Option

def Puts (P : ExtentValue → Prop) (ops : List (Op Val)) : Prop :=
  ∀ (ino chunk : Nat) (v : ExtentValue), Op.put (Key.extent ino chunk) v ∈ ops → P v

section

variable {P Q : ExtentValue → Prop} {ops ops' : List (Op Val)}

theorem Puts.nil : Puts P [] := fun _ _ _ h => nomatch h

theorem Puts.append (h : Puts P ops) (h' : Puts P ops') : Puts P (ops ++ ops') := by
  intro ino chunk v hv
  rcases mem_append.mp hv with hv | hv
  · exact h ino chunk v hv
  · exact h' ino chunk v hv

theorem Puts.flatMap {α : Type} {xs : List α} {f : α → List (Op Val)}
    (h : ∀ x ∈ xs, Puts P (f x)) : Puts P (xs.flatMap f) := by
  intro ino chunk v hv
  obtain ⟨x, hx, hv⟩ := mem_flatMap.mp hv
  exact h x hx ino chunk v hv

theorem Puts.imp (h : Puts P ops) (hPQ : ∀ v, P v → Q v) : Puts Q ops :=
  fun ino chunk v hv => hPQ v (h ino chunk v hv)

/-! ## What a plan puts -/

variable {n : Node} {w : WriteReq} {runs : List Run} {rec : InodeRecord} {existing : List Extent}

theorem mem_of_put_extentPuts {ino ino' chunk chunk' : Nat} {v : ExtentValue}
    {vs : List ExtentValue} (h : Op.put (Key.extent ino' chunk') v ∈ extentPuts ino chunk vs) :
    v ∈ vs := by
  induction vs generalizing chunk with
  | nil => cases h
  | cons x vs ih =>
    rcases mem_cons.mp h with h | h
    · cases h
      exact mem_cons_self
    · exact mem_cons_of_mem _ (ih h)

theorem planReclaim_puts {ino start stop next next' : Nat} {e : Extent} {plan : ReclaimPlan}
    (h : planReclaim n ino e start stop next = (some plan, next'))
    (hhead : P (headOf e.toExtentValue start))
    (htail : stop < e.endOff → P (tailOf e.toExtentValue stop)) : Puts P plan.ops := by
  obtain ⟨head, tail, hsplit⟩ : ∃ head tail,
      splitAround e.toExtentValue start stop = (head, tail) := ⟨_, _, rfl⟩
  obtain ⟨rfl, rfl⟩ := Prod.mk.inj hsplit
  have hh : ∀ x ∈ (splitAround e.toExtentValue start stop).1, P x := by
    intro x hx
    obtain ⟨-, rfl⟩ := ite_some_none_eq_some.mp hx
    exact hhead
  have ht : ∀ x ∈ (splitAround e.toExtentValue start stop).2, P x := by
    intro x hx
    obtain ⟨hlt, rfl⟩ := ite_some_none_eq_some.mp hx
    exact htail hlt
  revert hh ht
  unfold planReclaim at h
  split at h
  · revert h
    rcases splitAround e.toExtentValue start stop with ⟨head, tail⟩
    intro h hh ht i chunk v hv
    cases head with
    | none =>
      cases tail with
      | none =>
        cases h
        cases mem_singleton.mp hv
      | some t =>
        dsimp only at h
        split at h
        · cases h
        · cases h
          cases mem_singleton.mp hv
          exact ht v rfl
    | some x =>
      cases tail with
      | none =>
        cases h
        cases mem_singleton.mp hv
        exact hh v rfl
      | some t =>
        cases h
        rcases mem_cons.mp hv with hv | hv
        · cases hv
          exact hh v rfl
        · cases mem_singleton.mp hv
          exact ht v rfl
  · cases h

theorem proposal_puts (hnew : ∀ v ∈ newExtents n w (nextSeq existing) 0 runs, P v)
    (hhead : ∀ e ∈ existing, w.offset < e.endOff → P (headOf e.toExtentValue w.offset))
    (htail : ∀ e ∈ existing, ∀ stop < e.endOff, P (tailOf e.toExtentValue stop)) :
    Puts P (proposal n w runs rec existing).ops := by
  refine proposal_induction (P := fun _ ops => Puts P ops) ?_ ?_
  · refine Puts.append (fun ino chunk v hv => ?_) fun ino chunk v hv => ?_
    · exact hnew v (mem_of_put_extentPuts hv)
    · split at hv
      · cases mem_singleton.mp hv
      · cases hv
  · intro cmps ops e plan stop next next' he hplan _ _ ih
    exact ih.append (planReclaim_puts hplan (hhead e he.1 he.2) (htail e he.1 stop))

/-! ## What a buffer and a snapshot take over -/

theorem mem_setOp {op o : Op Val} (h : o ∈ setOp ops op) : o ∈ ops ∨ o = op := by
  unfold setOp at h
  split at h
  · obtain ⟨x, hx, rfl⟩ := mem_map.mp h
    split
    · exact .inr rfl
    · exact .inl hx
  · rcases mem_append.mp h with h | h
    · exact .inl h
    · exact .inr (mem_singleton.mp h)

theorem Puts.foldl_setOp (h : Puts P ops) (h' : Puts P ops') : Puts P (ops'.foldl setOp ops) := by
  induction ops' generalizing ops with
  | nil => exact h
  | cons op ops' ih =>
    refine ih (fun ino chunk v hv => ?_) fun ino chunk v hv =>
      h' ino chunk v (mem_cons_of_mem _ hv)
    rcases mem_setOp hv with hv | rfl
    · exact h ino chunk v hv
    · exact h' ino chunk v mem_cons_self

theorem replayTxn_puts {ino : Nat} {r : TxnReplay} (h : replayTxn ino rec ops = some r)
    (hops : Puts P ops) : ∀ put ∈ r.puts, P put.2 := by
  induction ops using reverseRecOn generalizing r with
  | nil =>
    cases h
    exact fun put hput => nomatch hput
  | append_singleton ops op ih =>
    simp only [replayTxn, foldlM_append, foldlM_cons, foldlM_nil] at h
    obtain ⟨r₀, hr₀, hstep⟩ := bind_eq_some_iff.mp h
    have hold := ih hr₀ fun i c v hv => hops i c v (mem_append_left _ hv)
    have hstep : r₀.decode ino op = some r := by simpa using hstep
    unfold TxnReplay.decode at hstep
    split at hstep
    · obtain ⟨-, rfl⟩ := ite_some_none_eq_some.mp hstep
      exact hold
    · obtain ⟨-, rfl⟩ := ite_some_none_eq_some.mp hstep
      intro put hput
      rcases mem_append.mp hput with hput | hput
      · exact hold put hput
      · rw [mem_singleton.mp hput]
        exact hops _ _ _ mem_concat_self
    · obtain ⟨-, rfl⟩ := ite_some_none_eq_some.mp hstep
      exact hold
    · cases hstep

theorem apply_extents {r : TxnReplay} {m : InodeMeta} (rev : Nat)
    (hm : ∀ e ∈ m.extents, P e.toExtentValue) (hr : ∀ put ∈ r.puts, P put.2) :
    ∀ e ∈ (r.apply m rev).extents, P e.toExtentValue := by
  have hdels : ∀ (dels : List Nat) (es : List Extent), (∀ e ∈ es, P e.toExtentValue) →
      ∀ e ∈ dels.foldl removeChunk es, P e.toExtentValue := by
    intro dels
    induction dels with
    | nil => exact fun es hes => hes
    | cons chunk dels ih =>
      exact fun es hes => ih _ fun e he => hes e (mem_of_mem_eraseP he)
  have hputs : ∀ (puts : List (Nat × ExtentValue)) (es : List Extent),
      (∀ put ∈ puts, P put.2) → (∀ e ∈ es, P e.toExtentValue) →
      ∀ e ∈ puts.foldl (replacePut rev) es, P e.toExtentValue := by
    intro puts
    induction puts with
    | nil => exact fun es _ hes => hes
    | cons put puts ih =>
      intro es hput hes
      refine ih _ (fun p hp => hput p (mem_cons_of_mem _ hp)) fun e he => ?_
      rcases mem_insertExtent.mp he with rfl | he
      · exact hput put mem_cons_self
      · exact hes e (mem_of_mem_eraseP he)
  exact hputs r.puts _ hr (hdels r.dels m.extents hm)

end

end EtcFS.Ipc
