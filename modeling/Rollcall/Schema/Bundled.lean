import Rollcall.FileTree

/-! The migrations that come with the service, one directory for each kind of database. -/

namespace Rollcall.Migration

/-- The files with their lines. -/
def bundledFiles : List (Location × List String) :=
  [
    (["migrations", "keyspaces", "1_create_submissions.down.cql"], [
      "DROP TABLE IF EXISTS submissions;"]),
    (["migrations", "keyspaces", "1_create_submissions.up.cql"], [
      "CREATE TABLE IF NOT EXISTS submissions (",
      "    submitted_at_date text,",
      "    submitted_at timestamp,",
      "    submitter text,",
      "    created_at timestamp,",
      "    block_hash text,",
      "    raw_block blob,",
      "    remote_addr text,",
      "    peer_id text,",
      "    snark_work blob,",
      "    graphql_control_port int,",
      "    built_with_commit_sha text,",
      "    PRIMARY KEY ((submitted_at_date), submitted_at, submitter)",
      ");"]),
    (["migrations", "keyspaces", "2_create_blocks.down.cql"], [
      "DROP TABLE IF EXISTS blocks;"]),
    (["migrations", "keyspaces", "2_create_blocks.up.cql"], [
      "CREATE TABLE IF NOT EXISTS blocks (",
      "    block_hash text,",
      "    raw_block blob,",
      "    PRIMARY KEY (block_hash)",
      ");"]),
    (["migrations", "postgres", "1_create_submissions.down.sql"], [
      "DROP INDEX IF EXISTS idx_submissions_submitted_at;",
      "DROP TABLE IF EXISTS submissions;"]),
    (["migrations", "postgres", "1_create_submissions.up.sql"], [
      "CREATE TABLE IF NOT EXISTS submissions (",
      "    id SERIAL PRIMARY KEY,",
      "    submitted_at_date DATE NOT NULL,",
      "    submitted_at TIMESTAMP NOT NULL,",
      "    submitter TEXT NOT NULL,",
      "    created_at TIMESTAMP,",
      "    block_hash TEXT,",
      "    remote_addr TEXT,",
      "    peer_id TEXT,",
      "    snark_work BYTEA,",
      "    graphql_control_port INT,",
      "    built_with_commit_sha TEXT,",
      "    CONSTRAINT uq_submissions_submitter_date UNIQUE (submitter, submitted_at_date)",
      ");",
      "",
      "CREATE INDEX IF NOT EXISTS idx_submissions_submitted_at ON submissions (submitted_at);"])
  ]

/-- Lines as the content of a file. -/
def ofLines (l : List String) : ByteArray := (String.join (l.map (· ++ "\n"))).toUTF8

/-- The directory of the migrations, with all that stands in it. -/
def bundled : FileTree :=
  bundledFiles.foldl (fun t e => t.put e.1 (.file (ofLines e.2)))
    ([["migrations"], ["migrations", "keyspaces"], ["migrations", "postgres"]].foldl
      (fun t d => t.put d .directory) {})

end Rollcall.Migration
