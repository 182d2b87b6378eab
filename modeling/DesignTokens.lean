import DesignTokens.Analysis.Basic
import DesignTokens.Analysis.Entry
import DesignTokens.Analysis.ItemReport
import DesignTokens.Analysis.Literal
import DesignTokens.Analysis.Platforms
import DesignTokens.Analysis.Setting
import DesignTokens.Analysis.Walk
import DesignTokens.Bundle
import DesignTokens.Color
import DesignTokens.CommandLine.Arguments
import DesignTokens.CommandLine.Location
import DesignTokens.CommandLine.Output
import DesignTokens.CommandLine.Run
import DesignTokens.Decimal.Layout
import DesignTokens.Decimal.Read
import DesignTokens.Decimal.Shortest
import DesignTokens.Diagnostic
import DesignTokens.Document
import DesignTokens.ItemPath
import DesignTokens.ItemType
import DesignTokens.Locate
import DesignTokens.Main
import DesignTokens.OrderedMap
import DesignTokens.Proofs.Block.Document
import DesignTokens.Proofs.Block.ImportAnchors
import DesignTokens.Proofs.Block.Item
import DesignTokens.Proofs.Block.ItemMarks
import DesignTokens.Proofs.Block.ItemSites
import DesignTokens.Proofs.Block.Lines
import DesignTokens.Proofs.Block.Lists
import DesignTokens.Proofs.Block.Positions
import DesignTokens.Proofs.Block.Themes
import DesignTokens.Proofs.Block.Walk
import DesignTokens.Proofs.CleanDocument
import DesignTokens.Proofs.ColorDigits
import DesignTokens.Proofs.ColorSpellings
import DesignTokens.Proofs.ColorText
import DesignTokens.Proofs.DigitTexts
import DesignTokens.Proofs.DistinctKeys
import DesignTokens.Proofs.EntryReports
import DesignTokens.Proofs.Equality
import DesignTokens.Proofs.Fallback
import DesignTokens.Proofs.Findings
import DesignTokens.Proofs.FontWeights
import DesignTokens.Proofs.HostView
import DesignTokens.Proofs.HoverOrder
import DesignTokens.Proofs.HoverRows
import DesignTokens.Proofs.Imports
import DesignTokens.Proofs.ItemProblems
import DesignTokens.Proofs.KeyLines
import DesignTokens.Proofs.LinePositions
import DesignTokens.Proofs.Meaning
import DesignTokens.Proofs.OrderedMap
import DesignTokens.Proofs.OutputOptions
import DesignTokens.Proofs.Pass
import DesignTokens.Proofs.Places
import DesignTokens.Proofs.PlainDigits
import DesignTokens.Proofs.PlatformCursor
import DesignTokens.Proofs.PlatformScope
import DesignTokens.Proofs.PrintedPaths
import DesignTokens.Proofs.Problems
import DesignTokens.Proofs.RegistryTypes
import DesignTokens.Proofs.Resolution
import DesignTokens.Proofs.Search
import DesignTokens.Proofs.Swatches
import DesignTokens.Proofs.TextCuts
import DesignTokens.Proofs.ThemeDeclarations
import DesignTokens.Proofs.ThemeEntries
import DesignTokens.Proofs.ThemeLabels
import DesignTokens.Proofs.Themes
import DesignTokens.Proofs.WalkOrder
import DesignTokens.Proofs.WrittenLocations
import DesignTokens.Proofs.WrittenScalars
import DesignTokens.Report
import DesignTokens.Settings
import DesignTokens.Swatch
import DesignTokens.Text.Blank
import DesignTokens.Text.LineIndex
import DesignTokens.Text.Span
import DesignTokens.Text.Utf8
import DesignTokens.Themes
import DesignTokens.Toml.Read
import DesignTokens.Toml.Settings
import DesignTokens.Toml.Value
import DesignTokens.Value
import DesignTokens.Workspace
import DesignTokens.Yaml.Anchors
import DesignTokens.Yaml.Draft
import DesignTokens.Yaml.Fault
import DesignTokens.Yaml.Input
import DesignTokens.Yaml.Node
import DesignTokens.Yaml.Scalar
import DesignTokens.Yaml.Scan.Block
import DesignTokens.Yaml.Scan.Flow
import DesignTokens.Yaml.Scan.Property
import DesignTokens.Yaml.Tag
import DesignTokens.Yaml.Token
import DesignTokens.Yaml.Value
