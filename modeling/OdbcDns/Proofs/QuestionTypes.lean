import OdbcDns.Proofs.Relay

namespace OdbcDns
open Slice Rfc1035

/-- The sixteen-bit type, as it stands in the message. -/
def WireQuestion.type (q : WireQuestion) : Nat := q.typeHigh.toNat * 256 + q.typeLow.toNat

theorem WireQuestion.type_eq_one (q : WireQuestion) :
    q.type = 1 ↔ q.typeHigh = 0 ∧ q.typeLow = 1 := by
  have h0 : (0 : Byte).toNat = 0 := rfl
  have h1 : (1 : Byte).toNat = 1 := rfl
  rw [type, ← UInt8.toNat_inj, ← UInt8.toNat_inj, h0, h1]
  omega

/-- What `resolve` is to do for its only question, by the type that was asked for:
addresses are looked up, and all else is forwarded or not implemented. -/
def typedPath (cfg : Config) (locals : Locals) (lookup : List Byte → List Row)
    (responseData packetLen type : Nat) (query : DNSQuery) : Call ResponseInfo :=
  if type = 1 then do
    let (length, info) ←
      resolveA cfg locals lookup query responseData (.new locals.length) packetLen
    pure { info with length }
  else do
    let s ← Act.get
    if rd s.packet.bytes then
      let length ← recursiveResolve cfg packetLen
      pure { ResponseInfo.new locals.length with length, recursionOccurred := true }
    else pure { ResponseInfo.new locals.length with rcode := .notImplemented }

section Resolve

variable {cfg : Config} {locals : Locals} {lookup : List Byte → List Row}
  {responseData packetLen type : Nat} {query : DNSQuery} {s : Session}

/-- `resolve` goes by the type it has parsed. -/
theorem resolve_typed (hq : s.queries = [query]) (ht : query.qtype = typeA ↔ type = 1) :
    resolve cfg locals lookup responseData packetLen s =
      typedPath cfg locals lookup responseData packetLen type query s := by
  rw [resolve, Act.bind_of_ok (Act.get_apply s), hq, resolveLoop_cons]
  unfold typedPath
  by_cases h : type = 1
  · rw [if_pos h, if_pos (ht.mpr h)]
    rfl
  · rw [if_neg h, if_neg (fun hx => h (ht.mp hx))]

/-- Without a server, no other type than A can fail. -/
theorem typedPath_ne_error (hs : cfg.noServer = true) (ht : type ≠ 1) {e : Stop} {s' : Session} :
    typedPath cfg locals lookup responseData packetLen type query s ≠ (.error e, s') := by
  unfold typedPath
  rw [if_neg ht, Act.bind_of_ok (Act.get_apply s)]
  intro h
  split at h
  · rw [Act.bind_of_ok (recursiveResolve_of_noServer hs packetLen s)] at h
    cases h
  · cases h

/-- Any other type than A without recursion. -/
theorem typedPath_notImplemented (ht : type ≠ 1) (hr : rd s.packet.bytes = false) :
    typedPath cfg locals lookup responseData packetLen type query s =
      (.ok { ResponseInfo.new locals.length with rcode := .notImplemented }, s) := by
  unfold typedPath
  rw [if_neg ht, Act.bind_of_ok (Act.get_apply s), if_neg (by rw [hr]; decide)]
  rfl

end Resolve

/-- The only question of a request is resolved by its type, and gets RCODE 4 when
the type is not implemented and no recursion is desired. -/
def ResolvedByType (cfg : Config) (t : Turn) (w : Worker) (q : WireQuestion) : Prop :=
  ∃ g query, w.clean.extract cfg t = .ok g ∧ g.error = false ∧ g.session.queries = [query] ∧
    resolve cfg t.locals t.lookup (sizeAdd headerLength g.totalBytes)
        (sizeAdd headerLength g.totalBytes) g.session =
      typedPath cfg t.locals t.lookup (sizeAdd headerLength g.totalBytes)
        (sizeAdd headerLength g.totalBytes) q.type query g.session ∧
    (q.type ≠ 1 → rd t.datagram = false → ∃ g' info,
      Worker.respond cfg t w.responseInfo g = .ok (g', info) ∧
      rcode g'.session.packet.bytes = 4)

/-- A type whose low byte decides is resolved as it should be. -/
theorem resolvedByType {d : List Byte} {q : WireQuestion} (h : Raises d [q])
    (hne : q.labels ≠ []) (ht : q.typeHigh = 0 ∨ q.typeLow ≠ 1) (cfg : Config) {t : Turn}
    (hd : t.datagram = d) (w : Worker) : ResolvedByType cfg t w q := by
  have named : ∀ k ∈ [q], k.labels ≠ [] := by simpa using hne
  have hx := h.extract named cfg hd w.clean
  have hqs : (w.clean.extracted t ([q].map WireQuestion.query)).queries = [q.query] := rfl
  have htype : q.query.qtype = typeA ↔ q.type = 1 := by
    have hlow : q.query.qtype = typeA ↔ q.typeLow = 1 := charToU16_eq_typeA q.typeLow
    rw [hlow, q.type_eq_one]
    exact ⟨fun hl => ⟨ht.resolve_right (not_not_intro hl), hl⟩, And.right⟩
  refine ⟨_, q.query, hx, rfl, hqs, resolve_typed hqs htype, fun hone hrd => ?_⟩
  rw [hd, ← h.rd_extracted hd w.clean] at hrd
  refine ⟨_, _, Worker.respond_of_ok
    ((resolve_typed hqs htype).trans (typedPath_notImplemented hone hrd)) _, ?_⟩
  exact rcode_answered cfg _ _ rfl

/-- Another type that ends in the low byte of A is looked up like A. The lookup fails
here, and forwarding without a server would not. -/
theorem not_resolvedByType {d : List Byte} {q : WireQuestion} (h : Raises d [q])
    (hl : d.length ≤ 512) (hhigh : q.typeHigh ≠ 0) (hlow : q.typeLow = 1) :
    ¬ ResolvedByType ⟨4294967295, false⟩ (.failing d hl) .idle q := by
  rintro ⟨g, query, hx, _, hqs, hr, _⟩
  have hone : q.type ≠ 1 := fun ht => hhigh (q.type_eq_one.mp ht).1
  have hne : q.labels ≠ [] := by
    intro he
    rw [h.extract_root ⟨q, by simp, he⟩ _ rfl] at hx
    cases hx
  rw [h.extract (by simpa using hne) _ rfl] at hx
  cases hx
  cases hqs
  have htype : q.query.qtype = typeA := (charToU16_eq_typeA q.typeLow).mpr hlow
  rw [resolve, Act.bind_of_ok (Act.get_apply _), Worker.queries_extracted rfl, List.map_cons,
    resolveLoop_cons, if_pos htype, Act.bind_of_error (resolveA_of_fails q.length_qname rfl)] at hr
  exact typedPath_ne_error rfl hone hr.symm

/-- The question is resolved by its type, whatever is in the cache and whatever has
happened before, exactly when its name is not the root and its type does not only
end in the low byte of A. -/
theorem resolvedByType_iff {d : List Byte} {q : WireQuestion} (h : Raises d [q])
    (hl : d.length ≤ 512) :
    (∀ cfg t w, t.datagram = d → ResolvedByType cfg t w q) ↔
      q.labels ≠ [] ∧ (q.typeHigh = 0 ∨ q.typeLow ≠ 1) := by
  refine ⟨fun hall => ⟨fun he => ?_, ?_⟩, fun hq cfg t w hd => resolvedByType h hq.1 hq.2 cfg hd w⟩
  · obtain ⟨g, _, hx, _⟩ := hall ⟨4294967295, false⟩ (.failing d hl) .idle rfl
    rw [h.extract_root ⟨q, by simp, he⟩ _ rfl] at hx
    cases hx
  · by_contra hq
    obtain ⟨hhigh, hlow⟩ := not_or.mp hq
    exact not_resolvedByType h hl hhigh (Decidable.not_not.mp hlow) (hall _ _ _ rfl)

/-- A question for the name `a`. -/
def askedType (high low : Byte) : WireQuestion :=
  ⟨nameA.labels, nameA.ok, nameA.short, high, low, 0, 1⟩

def typeRequest (high low : Byte) : List Byte :=
  [0, 7, 1, 0, 0, 1, 0, 0, 0, 0, 0, 0] ++ (askedType high low).bytes

theorem raises_typeRequest (high low : Byte) :
    Raises (typeRequest high low) [askedType high low] := by
  have h4 : byteAt (typeRequest high low) 4 = 0 := rfl
  have h5 : byteAt (typeRequest high low) 5 = 1 := rfl
  refine ⟨by simp [typeRequest], ?_, At.of_drop [] (by simp [typeRequest, wireBytes])⟩
  rw [qdcount, h4, h5]
  rfl

theorem resolvedByType_iff_aaaa :
    Raises (typeRequest 0 28) [askedType 0 28] ∧ (askedType 0 28).type = 28 ∧
      ¬ ∃ cfg t w, t.datagram = typeRequest 0 28 ∧ ¬ ResolvedByType cfg t w (askedType 0 28) := by
  refine ⟨raises_typeRequest 0 28, rfl, ?_⟩
  rintro ⟨cfg, t, w, hd, hn⟩
  exact hn ((resolvedByType_iff (raises_typeRequest 0 28) (by decide)).mpr (by decide) cfg t w hd)

/-- A question of type 257 (CAA) is answered with an address. -/
theorem resolvedByType_fails_caa :
    Raises (typeRequest 1 1) [askedType 1 1] ∧ (askedType 1 1).type = 257 ∧
      ¬ ResolvedByType ⟨4294967295, false⟩ (.failing (typeRequest 1 1) (by decide)) .idle
        (askedType 1 1) ∧
      (Worker.idle.run resolver [.quiet (typeRequest 1 1) (by decide)
        (fun _ => [⟨60, [97], [49, 46, 50, 46, 51, 46, 52], 1, 1⟩])]).toOption.map
          (fun r => r.2.map ancount) = some [1] :=
  ⟨raises_typeRequest 1 1, rfl,
    not_resolvedByType (raises_typeRequest 1 1) _ (by decide) rfl, by decide +kernel⟩

end OdbcDns
