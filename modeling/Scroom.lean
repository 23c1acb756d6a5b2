import Scroom.TileViewState
import Scroom.Loops
import Scroom.Pyramid
import Scroom.Redraw
import Scroom.BlobOwnership
import Scroom.TileLoading
import Scroom.CascadeData
import Scroom.UniformColor
import Scroom.TiffLayers
import Scroom.TiffSource
import Scroom.QueueImpl
import Scroom.PageProvider
import Scroom.BucketQueue
import Scroom.ThreadPool
import Scroom.Bookkeeping
import Scroom.ViewData
import Scroom.DataFetcher
import Scroom.BlobCompression
import Scroom.CompressedTile
import Scroom.ProgressBroadcaster
import Scroom.ProgressMultiplexer
import Scroom.SizeDeterminer
import Scroom.MonochromeColormap
import Scroom.BlockMeans
import Scroom.TopTwo
import Scroom.PixelSums
import Scroom.PixelAverages
import Scroom.Pipette
import Scroom.BookkeepingMutex
import Scroom.BookkeepingView
import Scroom.Observable
import Scroom.RectangleAlgebra
import Scroom.RulerCalculations
import Scroom.Tweakers
import Scroom.DetermineSize
import Scroom.Ruler
import Scroom.View
import Scroom.OffscreenSurface
import Scroom.TransformPresentation
import Scroom.ClippedZoom
import Scroom.TilePlacement
import Scroom.SampleAddressing
import Scroom.ProgressBarManager
import Scroom.Colormaps
import Scroom.Grid
import Scroom.Mipmap
import Scroom.Display
import Scroom.SelectedPixels
import Scroom.Tools
import Scroom.Switches
import Scroom.Presentation
import Scroom.Maps
import Scroom.Overlay
import Scroom.Blending
import Scroom.NewWindowMenu
import Scroom.Callbacks
import Scroom.Application
import Scroom.RulerTicks
import Scroom.ViewWidgets
