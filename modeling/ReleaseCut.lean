import ReleaseCut.Artifact.Listing
import ReleaseCut.Artifact.Name
import ReleaseCut.Artifact.Staging
import ReleaseCut.Bump
import ReleaseCut.Bytes
import ReleaseCut.Changelog
import ReleaseCut.CommandLine.Options
import ReleaseCut.CommandLine.Program
import ReleaseCut.CommandLine.Scene
import ReleaseCut.Commit.Basic
import ReleaseCut.Commit.Kind
import ReleaseCut.Commit.Tally
import ReleaseCut.Config.Basic
import ReleaseCut.Config.Document
import ReleaseCut.Config.Load
import ReleaseCut.Date
import ReleaseCut.Document
import ReleaseCut.Error
import ReleaseCut.FileTree.Basic
import ReleaseCut.FileTree.Disk
import ReleaseCut.FileTree.Path
import ReleaseCut.FileTree.System
import ReleaseCut.Glob
import ReleaseCut.Main
import ReleaseCut.Notes.Basic
import ReleaseCut.Notes.Markdown
import ReleaseCut.Release.Cut
import ReleaseCut.Release.Notice
import ReleaseCut.Release.Plan
import ReleaseCut.Repository.Basic
import ReleaseCut.Repository.Checkout
import ReleaseCut.Repository.Fault
import ReleaseCut.Repository.Git
import ReleaseCut.Repository.History
import ReleaseCut.Repository.Memory
import ReleaseCut.Repository.RefName
import ReleaseCut.Section
import ReleaseCut.TagFormat
import ReleaseCut.Terminal.Message
import ReleaseCut.Terminal.Style
import ReleaseCut.Text.Blank
import ReleaseCut.Text.Placeholder
import ReleaseCut.Text.Quoted
import ReleaseCut.Text.Shown
import ReleaseCut.Text.Split
import ReleaseCut.Toml.Reader
import ReleaseCut.Toml.Scalar
import ReleaseCut.Toml.Table
import ReleaseCut.Toml.Text
import ReleaseCut.Version.Basic
import ReleaseCut.Version.Identifier
import ReleaseCut.Version.Text
import ReleaseCut.Proofs.History.Reachability
import ReleaseCut.Proofs.History.Walk
import ReleaseCut.Proofs.History.Order
import ReleaseCut.Proofs.Text.Split
import ReleaseCut.Proofs.Text.ByteOrder
import ReleaseCut.Proofs.Text.Template
import ReleaseCut.Proofs.Text.Occurrence
import ReleaseCut.Proofs.Text.Trim
import ReleaseCut.Proofs.Version.Order
import ReleaseCut.Proofs.Version.Chain
import ReleaseCut.Proofs.Version.Text
import ReleaseCut.Proofs.Commit.Header
import ReleaseCut.Proofs.Commit.Tally
import ReleaseCut.Proofs.Notes.Groups
import ReleaseCut.Proofs.Notes.Grouping
import ReleaseCut.Proofs.Notes.Canonical
import ReleaseCut.Proofs.Repository.TagName
import ReleaseCut.Proofs.Repository.Tags
import ReleaseCut.Proofs.Repository.LatestTag
import ReleaseCut.Proofs.Repository.Commits
import ReleaseCut.Proofs.Repository.CommitsSince
import ReleaseCut.Proofs.Release.Decision
import ReleaseCut.Proofs.Release.Verdict
import ReleaseCut.Proofs.Release.Changes
import ReleaseCut.Proofs.Release.Cut
import ReleaseCut.Proofs.Release.Ledger
import ReleaseCut.Proofs.Release.Coverage
import ReleaseCut.Proofs.FileTree.Walk
import ReleaseCut.Proofs.FileTree.Path
import ReleaseCut.Proofs.FileTree.Disk
import ReleaseCut.Proofs.Glob.Describes
import ReleaseCut.Proofs.Glob.Escape
import ReleaseCut.Proofs.Artifact.Name
import ReleaseCut.Proofs.Artifact.Staging
import ReleaseCut.Proofs.Artifact.Publish
import ReleaseCut.Proofs.Notes.Lines
import ReleaseCut.Proofs.Changelog.Headings
import ReleaseCut.Proofs.FileTree.Store
import ReleaseCut.Proofs.Changelog.Write
import ReleaseCut.Proofs.Release.Story
import ReleaseCut.Proofs.Release.Succession
import ReleaseCut.Proofs.Release.Linear
import ReleaseCut.Proofs.Release.Footprint
import ReleaseCut.Proofs.Changelog.Insert
import ReleaseCut.Proofs.Changelog.Successive
import ReleaseCut.Proofs.Release.Rerun
import ReleaseCut.Proofs.Changelog.Outline
import ReleaseCut.Proofs.Repository.TagOrder
import ReleaseCut.Proofs.Repository.Greatest
import ReleaseCut.Proofs.Release.Relevance
import ReleaseCut.Proofs.Repository.NewTag
import ReleaseCut.Proofs.Text.Substitute
import ReleaseCut.Proofs.Config.Load
import ReleaseCut.Proofs.Repository.Errors
import ReleaseCut.Proofs.Config.Runnable
import ReleaseCut.Proofs.Artifact.Selection
import ReleaseCut.Proofs.Artifact.Leftover
import ReleaseCut.Proofs.Notes.Agreement
import ReleaseCut.Proofs.Repository.Replay
import ReleaseCut.Proofs.Section
import ReleaseCut.Proofs.Config.Overlay
import ReleaseCut.Proofs.Artifact.Confinement
