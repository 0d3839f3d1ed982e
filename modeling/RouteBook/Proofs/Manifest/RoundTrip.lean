import RouteBook.Manifest.Decode
import RouteBook.Proofs.Document.JsonRoundTrip

/-! # Manifests and their one line of JSON

What is written for a manifest is read back as the manifest. All of its scalars are strings, so
the text gives back the document; the entries and their fields are then read in the order in
which they were written. A host prefix that is absent has no field, and one that is empty has a
field with the empty text. -/

namespace RouteBook

namespace ManifestEntry

/-- The fields that are written for an entry. An absent host prefix is left out. -/
def written (e : ManifestEntry) : List (Text × Text) :=
  ("operation", e.operation) :: ("method", e.method) :: ("uri", e.uri) ::
    e.hostPrefix.toList.map fun t => ("host_prefix", t)

/-- The entry as JSON on one line. -/
def json (e : ManifestEntry) : Text :=
  "\x7b" ++
    Text.join ","
      (e.written.map fun (name, t) => Document.Json.quote name ++ ":" ++ Document.Json.quote t) ++
    "\x7d"

theorem node_eq (e : ManifestEntry) :
    e.node = .record (e.written.map fun (name, t) => (.string name, .string t)) := by
  obtain ⟨operation, method, uri, hostPrefix⟩ := e
  cases hostPrefix with
  | none => rfl
  | some t => rfl

theorem quoted_node (e : ManifestEntry) : e.node.Quoted := by
  rw [node_eq]
  refine .record ?_ ?_
  · exact List.forall_mem_map.mpr fun _ _ => ⟨_, rfl⟩
  · exact List.forall_mem_map.mpr fun _ _ => .string _

theorem compact_node (e : ManifestEntry) : Document.Json.compact e.node = e.json := by
  have hfield :
      (Document.Json.compactField ∘
        fun field : Text × Text => (Node.string field.1, Node.string field.2)) =
      fun field => Document.Json.quote field.1 ++ ":" ++ Document.Json.quote field.2 := by
    funext field
    show Document.Json.quote field.1 ++ ([':'] ++ Document.Json.quote field.2) = _
    exact (List.append_assoc ..).symm
  rw [node_eq, Document.Json.compact, Document.Json.compactFields_eq_join, List.map_map, hfield]
  rfl

/-- An entry without a host prefix and one with an empty host prefix are both read as they were. -/
theorem entry?_node (e : ManifestEntry) : Dialect.json.entry? e.node = some e := by
  obtain ⟨operation, method, uri, hostPrefix⟩ := e
  cases hostPrefix with
  | none => rfl
  | some t => rfl

theorem mapM_entry?_node (entries : List ManifestEntry) :
    (entries.map node).mapM Dialect.json.entry? = some entries := by
  induction entries with
  | nil => rfl
  | cons e entries ih =>
    rw [List.map_cons, List.mapM_cons, entry?_node, ih]
    rfl

end ManifestEntry

namespace Manifest

theorem quoted_node (m : Manifest) : m.node.Quoted := by
  have hroutes : (Node.list (m.routes.map ManifestEntry.node)).Quoted :=
    .list (List.forall_mem_map.mpr fun e _ => e.quoted_node)
  exact .record (List.forall_mem_singleton.mpr ⟨_, rfl⟩) (List.forall_mem_singleton.mpr hroutes)

theorem json_eq (m : Manifest) :
    m.json = "\x7b\"routes\":[" ++ Text.join "," (m.routes.map ManifestEntry.json) ++ "]\x7d" := by
  have hentries : (m.routes.map ManifestEntry.node).map Document.Json.compact =
      m.routes.map ManifestEntry.json := by
    rw [List.map_map]
    exact List.map_congr_left fun e _ => e.compact_node
  have hroutes : Document.Json.compact (.list (m.routes.map ManifestEntry.node)) =
      '[' :: Text.join [','] (m.routes.map ManifestEntry.json) ++ [']'] := by
    rw [Document.Json.compact, Document.Json.compactItems_eq_join, hentries]
  show "\x7b\"routes\":" ++ Document.Json.compact (.list (m.routes.map ManifestEntry.node)) ++
    ['\x7d'] = _
  rw [hroutes]
  simp

theorem manifest?_node (m : Manifest) : Dialect.json.manifest? m.node = some m := by
  show ((m.routes.map ManifestEntry.node).mapM Dialect.json.entry?).map Manifest.mk = some m
  rw [ManifestEntry.mapM_entry?_node, Option.map_some]

theorem ofText?_json (m : Manifest) : ofText? .json m.json = some m := by
  show (Document.Json.read? (Document.Json.compact m.node)).bind Dialect.json.manifest? = some m
  rw [Document.Json.read?_compact m.quoted_node, Option.bind_some, manifest?_node]

/-- The line has the entries in their order and of each entry the fields that it has, and it is read
as the manifest that it was written for, whatever its texts hold. -/
theorem parse_json (m : Manifest) :
    m.json = "\x7b\"routes\":[" ++ Text.join "," (m.routes.map ManifestEntry.json) ++ "]\x7d" ∧
      parse .json m.json = .ok m := by
  refine ⟨m.json_eq, ?_⟩
  rw [parse, ofText?_json]

example :
    (Manifest.mk [⟨"A\x01", "GET", "/x", none⟩, ⟨"\"", "\n", "/é", some ""⟩]).json =
      "\x7b\"routes\":[\x7b\"operation\":\"A\\u0001\",\"method\":\"GET\",\"uri\":\"/x\"\x7d," ++
        "\x7b\"operation\":\"\\\"\",\"method\":\"\\n\",\"uri\":\"/é\"," ++
        "\"host_prefix\":\"\"\x7d]\x7d" := by
  decide +kernel

end Manifest

end RouteBook
